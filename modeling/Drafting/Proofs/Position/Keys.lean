import Drafting.Proofs.Outcome
import Drafting.Proofs.Position.Finite
import Drafting.Proofs.Position.Groups

/-!
# What sets of keys mean

Validation of a set of keys against three descriptions that do not follow its course: which
position a set of keys denotes, what its first fault is, and what is asked of every level that
validation comes to. Sets of keys are trees, since `rel` and `to` hold sets of keys again, and
the proofs are by induction on the tree or on one of the relations over it.
-/

namespace Drafting

variable {K : Type} [Scalar K]

namespace PositionKeys

/-- The position that a set of keys denotes. -/
inductive Denotes : PositionKeys K → Position K → Prop
  | current {k : PositionKeys K} :
      (∀ g, ¬ k.Has g) → Denotes k ⟨.current, k.update.getD true⟩
  | cartesian {k : PositionKeys K} :
      k.Only .cartesian → Scalar.isFinite (k.x.getD 0) = true →
      Scalar.isFinite (k.y.getD 0) = true →
      Denotes k ⟨.cartesian (k.x.getD 0) (k.y.getD 0), k.update.getD true⟩
  | polar {k : PositionKeys K} {s : String} {angle : Angle K} {radius : K} :
      k.Only .polar → k.angle = some s → k.radius = some radius → Angle.parse? s = some angle →
      Scalar.isFinite radius = true → Denotes k ⟨.polar angle radius, k.update.getD true⟩
  | relative {k r : PositionKeys K} {p : Position K} {d : Displacement K} :
      k.Only .relative → k.rel = some r → Denotes r p → p.spec = d.spec → k.base = none →
      Denotes k ⟨.relative d, k.update.getD true⟩
  | relativeTo {k r b : PositionKeys K} {p q : Position K} {d : Displacement K} :
      k.Only .relative → k.rel = some r → Denotes r p → p.spec = d.spec → k.base = some b →
      Denotes b q → Denotes k ⟨.relativeTo d q.spec q.update, k.update.getD true⟩
  | anchor {k : PositionKeys K} {node : String} :
      k.Only .anchor → k.name = some node →
      Denotes k ⟨.anchor node (AnchorKey.parse (k.anchor.getD "center")), k.update.getD true⟩

/-- The first thing that is wrong with a set of keys: a conflict of groups before anything
else at the level, then what is wrong in `rel`, then what is wrong in `to`. -/
inductive FirstFault : PositionKeys K → PositionError K → Prop
  | conflict {k : PositionKeys K} {first second : KeyGroup × String} :
      k.FirstTwo first second → FirstFault k (.conflictingKeys first.2 second.2)
  | x {k : PositionKeys K} :
      k.Only .cartesian → ¬ Scalar.isFinite (k.x.getD 0) = true →
      FirstFault k (.malformed "`x` must be a finite number")
  | y {k : PositionKeys K} :
      k.Only .cartesian → Scalar.isFinite (k.x.getD 0) = true →
      ¬ Scalar.isFinite (k.y.getD 0) = true →
      FirstFault k (.malformed "`y` must be a finite number")
  | missingPolar {k : PositionKeys K} :
      k.Only .polar → k.angle = none ∨ k.radius = none →
      FirstFault k (.malformed "a polar position needs both `angle` and `radius`")
  | angle {k : PositionKeys K} {s : String} {radius : K} :
      k.Only .polar → k.angle = some s → k.radius = some radius →
      (Angle.parse? s : Option (Angle K)) = none →
      FirstFault k (.malformed ("`" ++ s ++ "` is not an angle"))
  | radius {k : PositionKeys K} {s : String} {angle : Angle K} {radius : K} :
      k.Only .polar → k.angle = some s → k.radius = some radius → Angle.parse? s = some angle →
      ¬ Scalar.isFinite radius = true →
      FirstFault k (.malformed "`radius` must be a finite number")
  | missingRel {k : PositionKeys K} :
      k.Only .relative → k.rel = none → FirstFault k (.malformed "`to` requires `rel`")
  | rel {k r : PositionKeys K} {e : PositionError K} :
      k.Only .relative → k.rel = some r → FirstFault r e → FirstFault k e
  | notDisplacement {k r : PositionKeys K} {p : Position K} :
      k.Only .relative → k.rel = some r → Denotes r p → (∀ d : Displacement K, p.spec ≠ d.spec) →
      FirstFault k (.malformed "`rel` must be cartesian or polar")
  | base {k r b : PositionKeys K} {p : Position K} {d : Displacement K} {e : PositionError K} :
      k.Only .relative → k.rel = some r → Denotes r p → p.spec = d.spec → k.base = some b →
      FirstFault b e → FirstFault k e
  | missingName {k : PositionKeys K} :
      k.Only .anchor → k.name = none → FirstFault k (.malformed "`anchor` requires `name`")

omit [Scalar K] in
theorem induct {P : PositionKeys K → Prop}
    (level : ∀ k, (∀ r, k.rel = some r → P r) → (∀ b, k.base = some b → P b) → P k)
    (k : PositionKeys K) : P k := by
  refine @PositionKeys.rec K P (fun keys? => ∀ k, keys? = some k → P k) ?_ ?_ ?_ k
  · exact fun _ _ _ _ _ _ _ _ _ hrel hbase => level _ hrel hbase
  · exact nofun
  · intro k hk k' heq
    cases heq
    exact hk

variable {k : PositionKeys K} {p : Position K} {e : PositionError K}

theorem toPosition_eq (k : PositionKeys K) :
    k.toPosition = k.level (k.rel.map toPosition) (k.base.map toPosition) := by
  obtain ⟨x, y, angle, radius, rel, base, name, anchor, update⟩ := k
  cases rel <;> cases base <;> rfl

theorem levelSpec_of_only {g : KeyGroup} (h : k.Only g)
    (rel base : Option (Except (PositionError K) (Position K))) :
    k.levelSpec rel base = match g with
      | .cartesian => k.cartesianSpec
      | .polar => k.polarSpec
      | .relative => relativeSpec rel base
      | .anchor => k.anchorSpec := by
  obtain ⟨-, hnone⟩ | ⟨g', key, hgroups, h'⟩ | ⟨first, second, rest, -, htwo⟩ :=
    k.presentGroups_cases
  · exact absurd h.has (hnone g)
  · obtain rfl := h.eq g' h'.has
    unfold levelSpec
    rw [hgroups]
    cases g' <;> rfl
  · exact absurd h htwo.not_only

theorem toPosition_of_only {g : KeyGroup} (h : k.Only g) :
    k.toPosition = (Position.mk · (k.update.getD true)) <$> (match g with
      | .cartesian => k.cartesianSpec
      | .polar => k.polarSpec
      | .relative => relativeSpec (k.rel.map toPosition) (k.base.map toPosition)
      | .anchor => k.anchorSpec) := by
  rw [toPosition_eq, level, levelSpec_of_only h]
  rfl

theorem toPosition_of_none (h : ∀ g, ¬ k.Has g) :
    k.toPosition = .ok ⟨.current, k.update.getD true⟩ := by
  obtain ⟨hgroups, -⟩ | ⟨g, key, -, honly⟩ | ⟨first, second, rest, -, htwo⟩ :=
    k.presentGroups_cases
  · rw [toPosition_eq, level, levelSpec, hgroups]
    rfl
  · exact absurd honly.has (h g)
  · exact absurd htwo.has_first (h first.1)

theorem toPosition_of_firstTwo {first second : KeyGroup × String} (h : k.FirstTwo first second) :
    k.toPosition = .error (.conflictingKeys first.2 second.2) := by
  obtain ⟨-, hnone⟩ | ⟨g, key, -, honly⟩ | ⟨first', second', rest, hgroups, htwo⟩ :=
    k.presentGroups_cases
  · exact absurd h.has_first (hnone first.1)
  · exact absurd honly h.not_only
  · obtain ⟨rfl, rfl⟩ := h.unique htwo
    obtain ⟨g, key⟩ := first
    rw [toPosition_eq, level, levelSpec, hgroups]
    cases g <;> rfl

omit [Scalar K] in
theorem displacement_of_spec {d : Displacement K} (h : p.spec = d.spec) :
    displacement p = .ok d := by
  unfold displacement
  rw [h]
  cases d <;> rfl

omit [Scalar K] in
theorem displacement_of_ne (h : ∀ d : Displacement K, p.spec ≠ d.spec) :
    displacement p = .error (.malformed "`rel` must be cartesian or polar") := by
  unfold displacement
  split
  · next x y hspec => exact absurd hspec (h (.cartesian x y))
  · next angle radius hspec => exact absurd hspec (h (.polar angle radius))
  · rfl

/-- What a set of keys denotes is what validation makes of it. -/
theorem Denotes.toPosition (h : Denotes k p) : k.toPosition = .ok p := by
  induction h with
  | current hnone => exact toPosition_of_none hnone
  | cartesian honly hx hy =>
    rw [toPosition_of_only honly]
    simp only [cartesianSpec, Position.checkFinite, hx, hy, if_true]
    rfl
  | polar honly hangle hradius hparse hfinite =>
    rw [toPosition_of_only honly]
    simp only [polarSpec, hangle, hradius, Position.parseAngle, hparse, Position.checkFinite,
      hfinite, if_true]
    rfl
  | relative honly hrel _ hd hbase ih =>
    rw [toPosition_of_only honly, hrel, hbase]
    simp only [Option.map, relativeSpec, ih, bind, Except.bind, displacement_of_spec hd]
    rfl
  | relativeTo honly hrel _ hd hbase _ ih ihb =>
    rw [toPosition_of_only honly, hrel, hbase]
    simp only [Option.map, relativeSpec, ih, ihb, bind, Except.bind, displacement_of_spec hd]
    rfl
  | anchor honly hname =>
    rw [toPosition_of_only honly]
    simp only [anchorSpec, hname]
    rfl

/-- The first fault of a set of keys is what validation reports. -/
theorem FirstFault.toPosition (h : FirstFault k e) : k.toPosition = .error e := by
  induction h with
  | conflict htwo => exact toPosition_of_firstTwo htwo
  | x honly hx =>
    rw [toPosition_of_only honly]
    simp only [cartesianSpec, Position.checkFinite, if_neg hx]
    rfl
  | y honly hx hy =>
    rw [toPosition_of_only honly]
    simp only [cartesianSpec, Position.checkFinite, if_pos hx, if_neg hy]
    rfl
  | missingPolar honly hnone =>
    rw [toPosition_of_only honly]
    rcases hnone with hangle | hradius
    · simp only [polarSpec, hangle]
      rfl
    · rw [polarSpec, hradius]
      cases angle? : PositionKeys.angle _ <;> rfl
  | angle honly hangle hradius hparse =>
    rw [toPosition_of_only honly]
    simp only [polarSpec, hangle, hradius, Position.parseAngle, hparse]
    rfl
  | radius honly hangle hradius hparse hfinite =>
    rw [toPosition_of_only honly]
    simp only [polarSpec, hangle, hradius, Position.parseAngle, hparse, Position.checkFinite,
      if_neg hfinite]
    rfl
  | missingRel honly hrel =>
    rw [toPosition_of_only honly, hrel]
    rfl
  | rel honly hrel _ ih =>
    rw [toPosition_of_only honly, hrel]
    simp only [Option.map, relativeSpec, ih]
    rfl
  | notDisplacement honly hrel hr hd =>
    rw [toPosition_of_only honly, hrel]
    simp only [Option.map, relativeSpec, hr.toPosition, bind, Except.bind, displacement_of_ne hd]
    rfl
  | base honly hrel hr hd hbase _ ih =>
    rw [toPosition_of_only honly, hrel, hbase]
    simp only [Option.map, relativeSpec, hr.toPosition, ih, bind, Except.bind,
      displacement_of_spec hd]
    rfl
  | missingName honly hname =>
    rw [toPosition_of_only honly]
    simp only [anchorSpec, hname]
    rfl

theorem denotes_or_firstFault_of_cartesian (h : k.Only .cartesian) :
    (∃ p, Denotes k p) ∨ ∃ e, FirstFault k e := by
  by_cases hx : Scalar.isFinite (k.x.getD 0) = true
  · by_cases hy : Scalar.isFinite (k.y.getD 0) = true
    · exact .inl ⟨_, .cartesian h hx hy⟩
    · exact .inr ⟨_, .y h hx hy⟩
  · exact .inr ⟨_, .x h hx⟩

theorem denotes_or_firstFault_of_polar (h : k.Only .polar) :
    (∃ p, Denotes k p) ∨ ∃ e, FirstFault k e := by
  cases hangle : k.angle with
  | none => exact .inr ⟨_, .missingPolar h (.inl hangle)⟩
  | some s =>
    cases hradius : k.radius with
    | none => exact .inr ⟨_, .missingPolar h (.inr hradius)⟩
    | some radius =>
      cases hparse : (Angle.parse? s : Option (Angle K)) with
      | none => exact .inr ⟨_, .angle h hangle hradius hparse⟩
      | some angle =>
        by_cases hfinite : Scalar.isFinite radius = true
        · exact .inl ⟨_, .polar h hangle hradius hparse hfinite⟩
        · exact .inr ⟨_, .radius h hangle hradius hparse hfinite⟩

theorem denotes_or_firstFault_of_relative (h : k.Only .relative)
    (ihrel : ∀ r, k.rel = some r → (∃ p, Denotes r p) ∨ ∃ e, FirstFault r e)
    (ihbase : ∀ b, k.base = some b → (∃ p, Denotes b p) ∨ ∃ e, FirstFault b e) :
    (∃ p, Denotes k p) ∨ ∃ e, FirstFault k e := by
  cases hrel : k.rel with
  | none => exact .inr ⟨_, .missingRel h hrel⟩
  | some r =>
    obtain ⟨p, hp⟩ | ⟨e, he⟩ := ihrel r hrel
    · by_cases hdisplacement : ∃ d : Displacement K, p.spec = d.spec
      · obtain ⟨d, hd⟩ := hdisplacement
        cases hbase : k.base with
        | none => exact .inl ⟨_, .relative h hrel hp hd hbase⟩
        | some b =>
          obtain ⟨q, hq⟩ | ⟨e, he⟩ := ihbase b hbase
          · exact .inl ⟨_, .relativeTo h hrel hp hd hbase hq⟩
          · exact .inr ⟨e, .base h hrel hp hd hbase he⟩
      · exact .inr ⟨_, .notDisplacement h hrel hp (not_exists.mp hdisplacement)⟩
    · exact .inr ⟨e, .rel h hrel he⟩

/-- Every set of keys denotes a position or has a first fault. -/
theorem denotes_or_firstFault (k : PositionKeys K) :
    (∃ p, Denotes k p) ∨ ∃ e, FirstFault k e := by
  induction k using induct with
  | level k ihrel ihbase =>
    obtain ⟨-, hnone⟩ | ⟨g, key, -, honly⟩ | ⟨first, second, rest, -, htwo⟩ :=
      k.presentGroups_cases
    · exact .inl ⟨_, .current hnone⟩
    · cases g with
      | cartesian => exact denotes_or_firstFault_of_cartesian honly
      | polar => exact denotes_or_firstFault_of_polar honly
      | relative => exact denotes_or_firstFault_of_relative honly ihrel ihbase
      | anchor =>
        cases hname : k.name with
        | none => exact .inr ⟨_, .missingName honly hname⟩
        | some node => exact .inl ⟨_, .anchor honly hname⟩
    · exact .inr ⟨_, .conflict htwo⟩

theorem toPosition_eq_ok_iff : k.toPosition = .ok p ↔ Denotes k p := by
  refine ⟨fun h => ?_, Denotes.toPosition⟩
  obtain ⟨p', hp'⟩ | ⟨e, he⟩ := k.denotes_or_firstFault
  · rw [hp'.toPosition] at h
    cases h
    exact hp'
  · rw [he.toPosition] at h
    cases h

theorem toPosition_eq_error_iff : k.toPosition = .error e ↔ FirstFault k e := by
  refine ⟨fun h => ?_, FirstFault.toPosition⟩
  obtain ⟨p, hp⟩ | ⟨e', he'⟩ := k.denotes_or_firstFault
  · rw [hp.toPosition] at h
    cases h
  · rw [he'.toPosition] at h
    cases h
    exact he'

/-- What is asked of one level, whatever the levels inside it hold. -/
structure Sound (k : PositionKeys K) : Prop where
  one : ∀ g g', k.Has g → k.Has g' → g = g'
  cartesian : k.Has .cartesian →
    Scalar.isFinite (k.x.getD 0) = true ∧ Scalar.isFinite (k.y.getD 0) = true
  polar : k.Has .polar → ∃ s angle radius, k.angle = some s ∧ k.radius = some radius ∧
    Angle.parse? s = some (angle : Angle K) ∧ Scalar.isFinite radius = true
  relative : k.Has .relative → ∃ r, k.rel = some r ∧ (r.Has .cartesian ∨ r.Has .polar)
  anchor : k.Has .anchor → k.name.isSome

/-- The levels that validation comes to: the level itself, those of `rel` where the level is a
relative one, and those of `to` where `rel` is a displacement. -/
inductive Visits : PositionKeys K → PositionKeys K → Prop
  | self (k : PositionKeys K) : Visits k k
  | rel {k r l : PositionKeys K} :
      k.Only .relative → k.rel = some r → Visits r l → Visits k l
  | base {k r b l : PositionKeys K} {p : Position K} {d : Displacement K} :
      k.Only .relative → k.rel = some r → Denotes r p → p.spec = d.spec → k.base = some b →
      Visits b l → Visits k l

omit [Scalar K] in
theorem Only.one {g : KeyGroup} (h : k.Only g) (g₁ g₂ : KeyGroup) (h₁ : k.Has g₁)
    (h₂ : k.Has g₂) : g₁ = g₂ :=
  (h.eq g₁ h₁).trans (h.eq g₂ h₂).symm

omit [Scalar K] in
theorem Only.elim {P : Prop} {g g' : KeyGroup} (h : k.Only g) (hne : g' ≠ g) (hg : k.Has g') : P :=
  absurd (h.eq g' hg) hne

theorem Denotes.exists_displacement_iff (h : Denotes k p) :
    (∃ d : Displacement K, p.spec = d.spec) ↔ k.Has .cartesian ∨ k.Has .polar := by
  have hother {spec : PositionSpec K} (hc : ∀ x y, spec ≠ .cartesian x y)
      (hp : ∀ a r, spec ≠ .polar a r) : ¬ ∃ d : Displacement K, spec = d.spec := by
    rintro ⟨d, hd⟩
    cases d with
    | cartesian dx dy => exact hc dx dy hd
    | polar angle radius => exact hp angle radius hd
  cases h with
  | current hnone => exact iff_of_false (hother nofun nofun) (not_or_intro (hnone _) (hnone _))
  | cartesian honly => exact iff_of_true ⟨.cartesian _ _, rfl⟩ (.inl honly.has)
  | polar honly => exact iff_of_true ⟨.polar _ _, rfl⟩ (.inr honly.has)
  | relative honly =>
    exact iff_of_false (hother nofun nofun) (not_or_intro (honly.elim nofun) (honly.elim nofun))
  | relativeTo honly =>
    exact iff_of_false (hother nofun nofun) (not_or_intro (honly.elim nofun) (honly.elim nofun))
  | anchor honly =>
    exact iff_of_false (hother nofun nofun) (not_or_intro (honly.elim nofun) (honly.elim nofun))

theorem Denotes.sound (h : Denotes k p) : k.Sound := by
  cases h with
  | current hnone =>
    exact ⟨fun g _ hg => absurd hg (hnone g), fun hg => absurd hg (hnone _),
      fun hg => absurd hg (hnone _), fun hg => absurd hg (hnone _), fun hg => absurd hg (hnone _)⟩
  | cartesian honly hx hy =>
    exact ⟨honly.one, fun _ => ⟨hx, hy⟩, honly.elim nofun, honly.elim nofun, honly.elim nofun⟩
  | polar honly hangle hradius hparse hfinite =>
    exact ⟨honly.one, honly.elim nofun, fun _ => ⟨_, _, _, hangle, hradius, hparse, hfinite⟩,
      honly.elim nofun, honly.elim nofun⟩
  | relative honly hrel hr hd =>
    exact ⟨honly.one, honly.elim nofun, honly.elim nofun,
      fun _ => ⟨_, hrel, hr.exists_displacement_iff.mp ⟨_, hd⟩⟩, honly.elim nofun⟩
  | relativeTo honly hrel hr hd =>
    exact ⟨honly.one, honly.elim nofun, honly.elim nofun,
      fun _ => ⟨_, hrel, hr.exists_displacement_iff.mp ⟨_, hd⟩⟩, honly.elim nofun⟩
  | anchor honly hname =>
    exact ⟨honly.one, honly.elim nofun, honly.elim nofun, honly.elim nofun,
      fun _ => Option.isSome_of_eq_some hname⟩

theorem Denotes.inner (h : Denotes k p) (honly : k.Only .relative) :
    (∃ r q, k.rel = some r ∧ Denotes r q) ∧ ∀ b, k.base = some b → ∃ q, Denotes b q := by
  cases h with
  | current hnone => exact absurd honly.has (hnone _)
  | cartesian honly' => cases honly.eq _ honly'.has
  | polar honly' => cases honly.eq _ honly'.has
  | relative _ hrel hr _ hnone => exact ⟨⟨_, _, hrel, hr⟩, fun b hb => nomatch hnone.symm.trans hb⟩
  | relativeTo _ hrel hr _ hbase hb =>
    refine ⟨⟨_, _, hrel, hr⟩, fun b hb' => ?_⟩
    cases hbase.symm.trans hb'
    exact ⟨_, hb⟩
  | anchor honly' => cases honly.eq _ honly'.has

/-- Of a set of keys that denotes a position, every level is sound. -/
theorem sound_of_visits {l : PositionKeys K} (hl : Visits k l) (h : Denotes k p) : l.Sound := by
  induction hl generalizing p with
  | self => exact h.sound
  | rel honly hrel _ ih =>
    obtain ⟨⟨r, q, hrel', hr⟩, -⟩ := h.inner honly
    cases hrel.symm.trans hrel'
    exact ih hr
  | base honly _ _ _ hbase _ ih =>
    obtain ⟨q, hb⟩ := (h.inner honly).2 _ hbase
    exact ih hb

/-- A faulty set of keys has an unsound level that validation comes to. -/
theorem FirstFault.exists_not_sound (h : FirstFault k e) : ∃ l, Visits k l ∧ ¬ l.Sound := by
  induction h with
  | conflict htwo =>
    refine ⟨_, .self _, fun hs => ?_⟩
    have heq := hs.one _ _ htwo.has_first htwo.has_second
    exact absurd htwo.order (heq ▸ lt_irrefl _)
  | x honly hx => exact ⟨_, .self _, fun hs => hx (hs.cartesian honly.has).1⟩
  | y honly _ hy => exact ⟨_, .self _, fun hs => hy (hs.cartesian honly.has).2⟩
  | missingPolar honly hnone =>
    refine ⟨_, .self _, fun hs => ?_⟩
    obtain ⟨s, angle, radius, hangle, hradius, -⟩ := hs.polar honly.has
    rcases hnone with h | h
    · cases hangle.symm.trans h
    · cases hradius.symm.trans h
  | angle honly hangle _ hparse =>
    refine ⟨_, .self _, fun hs => ?_⟩
    obtain ⟨s, angle, radius, hangle', -, hparse', -⟩ := hs.polar honly.has
    cases hangle.symm.trans hangle'
    cases hparse.symm.trans hparse'
  | radius honly _ hradius _ hfinite =>
    refine ⟨_, .self _, fun hs => hfinite ?_⟩
    obtain ⟨s, angle, radius, -, hradius', -, hfinite'⟩ := hs.polar honly.has
    cases hradius.symm.trans hradius'
    exact hfinite'
  | missingRel honly hrel =>
    refine ⟨_, .self _, fun hs => ?_⟩
    obtain ⟨r, hrel', -⟩ := hs.relative honly.has
    cases hrel.symm.trans hrel'
  | rel honly hrel _ ih =>
    obtain ⟨l, hl, hsound⟩ := ih
    exact ⟨l, .rel honly hrel hl, hsound⟩
  | notDisplacement honly hrel hr hd =>
    refine ⟨_, .self _, fun hs => ?_⟩
    obtain ⟨r, hrel', hgroups⟩ := hs.relative honly.has
    cases hrel.symm.trans hrel'
    obtain ⟨d, hspec⟩ := hr.exists_displacement_iff.mpr hgroups
    exact hd d hspec
  | base honly hrel hr hd hbase _ ih =>
    obtain ⟨l, hl, hsound⟩ := ih
    exact ⟨l, .base honly hrel hr hd hbase hl, hsound⟩
  | missingName honly hname =>
    refine ⟨_, .self _, fun hs => ?_⟩
    have hsome := hs.anchor honly.has
    rw [hname] at hsome
    cases hsome

theorem exists_denotes_iff (k : PositionKeys K) :
    (∃ p, Denotes k p) ↔ ∀ l, Visits k l → l.Sound := by
  constructor
  · rintro ⟨p, hp⟩ l hl
    exact sound_of_visits hl hp
  · intro hsound
    obtain hp | ⟨e, he⟩ := k.denotes_or_firstFault
    · exact hp
    · obtain ⟨l, hl, hnot⟩ := he.exists_not_sound
      exact absurd (hsound l hl) hnot

theorem Denotes.isFinite {k : PositionKeys Float} {p : Position Float} (h : Denotes k p) :
    p.spec.IsFinite := by
  induction h with
  | current => trivial
  | cartesian _ hx hy => exact ⟨hx, hy⟩
  | polar _ _ _ hparse hradius => exact ⟨Angle.isFinite_of_parse? hparse, hradius⟩
  | relative _ _ _ hd _ ih => exact Displacement.isFinite_of_spec (hd ▸ ih)
  | relativeTo _ _ _ hd _ _ ih ihb => exact ⟨Displacement.isFinite_of_spec (hd ▸ ih), ihb⟩
  | anchor => exact AnchorKey.isFinite_parse _

/-- Which sets of keys are valid, what the valid ones stand for, and which error is reported of
the others. -/
theorem toPosition_outcome (k : PositionKeys Float) :
    ((∃ p, k.toPosition = .ok p) ↔ ∀ l, Visits k l → l.Sound) ∧
    (∀ p, k.toPosition = .ok p ↔ Denotes k p) ∧
    (∀ p, k.toPosition = .ok p → p.spec.IsFinite) ∧
    ∀ e, k.toPosition = .error e ↔ FirstFault k e := by
  refine ⟨?_, fun p => toPosition_eq_ok_iff, fun p h => ?_, fun e => toPosition_eq_error_iff⟩
  · simp only [toPosition_eq_ok_iff]
    exact k.exists_denotes_iff
  · exact (toPosition_eq_ok_iff.mp h).isFinite

end PositionKeys

end Drafting
