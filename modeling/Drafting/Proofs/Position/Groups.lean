import Mathlib.Data.Prod.Basic
import Mathlib.Order.Basic
import Mathlib.Data.Nat.Basic
import Drafting.Position.Keys

/-!
# Groups of position keys

Which groups of keys a level has, and by which key each of them is named in messages. A level
has no group, or exactly one, or two that come before all others in the order in which
conflicts are reported.
-/

namespace Drafting

variable {K : Type}

def KeyGroup.rank : KeyGroup → Nat
  | cartesian => 0
  | polar => 1
  | relative => 2
  | anchor => 3

theorem KeyGroup.rank_injective : Function.Injective rank := by
  intro g g' h
  cases g <;> cases g' <;> first | rfl | cases h

namespace PositionKeys

/-- The key of a group that stands for it: the first one present. -/
inductive Names : PositionKeys K → KeyGroup → String → Prop
  | x {k : PositionKeys K} : k.x.isSome → Names k .cartesian "x"
  | y {k : PositionKeys K} : k.x.isNone → k.y.isSome → Names k .cartesian "y"
  | angle {k : PositionKeys K} : k.angle.isSome → Names k .polar "angle"
  | radius {k : PositionKeys K} : k.angle.isNone → k.radius.isSome → Names k .polar "radius"
  | rel {k : PositionKeys K} : k.rel.isSome → Names k .relative "rel"
  | base {k : PositionKeys K} : k.rel.isNone → k.base.isSome → Names k .relative "to"
  | name {k : PositionKeys K} : k.name.isSome → Names k .anchor "name"
  | anchor {k : PositionKeys K} : k.name.isNone → k.anchor.isSome → Names k .anchor "anchor"

def Has (k : PositionKeys K) : KeyGroup → Prop
  | .cartesian => k.x.isSome ∨ k.y.isSome
  | .polar => k.angle.isSome ∨ k.radius.isSome
  | .relative => k.rel.isSome ∨ k.base.isSome
  | .anchor => k.name.isSome ∨ k.anchor.isSome

structure Only (k : PositionKeys K) (g : KeyGroup) : Prop where
  has : k.Has g
  eq : ∀ g', k.Has g' → g' = g

/-- Two groups with a key present, before all others. -/
structure FirstTwo (k : PositionKeys K) (first second : KeyGroup × String) : Prop where
  names_first : k.Names first.1 first.2
  names_second : k.Names second.1 second.2
  order : first.1.rank < second.1.rank
  others : ∀ g, k.Has g → g = first.1 ∨ second.1.rank ≤ g.rank

variable {k : PositionKeys K} {g g' : KeyGroup} {key : String}

theorem firstPresent_eq_some_iff {first second : String} {a b : Bool} :
    firstPresent first second a b = some key ↔
      (a = true ∧ first = key) ∨ (a = false ∧ b = true ∧ second = key) := by
  cases a <;> cases b <;> simp [firstPresent]

theorem firstKey_eq_some_iff : k.firstKey g = some key ↔ k.Names g key := by
  constructor
  · intro h
    cases g <;> obtain ⟨h₁, rfl⟩ | ⟨h₁, h₂, rfl⟩ := firstPresent_eq_some_iff.mp h
    · exact .x h₁
    · exact .y (Option.isSome_eq_false_iff.mp h₁) h₂
    · exact .angle h₁
    · exact .radius (Option.isSome_eq_false_iff.mp h₁) h₂
    · exact .rel h₁
    · exact .base (Option.isSome_eq_false_iff.mp h₁) h₂
    · exact .name h₁
    · exact .anchor (Option.isSome_eq_false_iff.mp h₁) h₂
  · intro h
    cases h <;> simp_all [firstKey, firstPresent]

theorem has_iff : k.Has g ↔ ∃ key, k.Names g key := by
  have hsome : (∃ key, k.Names g key) ↔ (k.firstKey g).isSome := by
    simp only [← firstKey_eq_some_iff, Option.isSome_iff_exists]
  rw [hsome]
  cases g <;> simp only [Has, firstKey, firstPresent] <;> grind

theorem mem_presentGroups : (g, key) ∈ k.presentGroups ↔ k.Names g key := by
  have hall : g ∈ KeyGroup.all := by cases g <;> decide
  rw [← firstKey_eq_some_iff]
  simp [presentGroups, hall]

theorem pairwise_presentGroups :
    k.presentGroups.Pairwise fun first second => first.1.rank < second.1.rank := by
  have hall : KeyGroup.all.Pairwise fun g g' => g.rank < g'.rank := by decide
  refine List.pairwise_filterMap.mpr (hall.imp fun {g g'} hlt first hfirst second hsecond => ?_)
  obtain ⟨key, -, rfl⟩ := Option.map_eq_some_iff.mp hfirst
  obtain ⟨key', -, rfl⟩ := Option.map_eq_some_iff.mp hsecond
  exact hlt

theorem presentGroups_cases (k : PositionKeys K) :
    (k.presentGroups = [] ∧ ∀ g, ¬ k.Has g) ∨
    (∃ g key, k.presentGroups = [(g, key)] ∧ k.Only g) ∨
    ∃ first second rest, k.presentGroups = first :: second :: rest ∧ k.FirstTwo first second := by
  have hmem {g : KeyGroup} (h : k.Has g) : ∃ key, (g, key) ∈ k.presentGroups := by
    obtain ⟨key, hkey⟩ := has_iff.mp h
    exact ⟨key, mem_presentGroups.mpr hkey⟩
  have hpair := k.pairwise_presentGroups
  match hgroups : k.presentGroups with
  | [] =>
    refine .inl ⟨rfl, fun g hg => ?_⟩
    obtain ⟨key, hkey⟩ := hmem hg
    rw [hgroups] at hkey
    cases hkey
  | [(g, key)] =>
    have hnames : k.Names g key := mem_presentGroups.mp (hgroups ▸ List.mem_singleton_self _)
    refine .inr (.inl ⟨g, key, rfl, has_iff.mpr ⟨key, hnames⟩, fun g' hg' => ?_⟩)
    obtain ⟨key', hkey'⟩ := hmem hg'
    rw [hgroups, List.mem_singleton] at hkey'
    exact congrArg Prod.fst hkey'
  | first :: second :: rest =>
    rw [hgroups, List.pairwise_cons, List.pairwise_cons] at hpair
    obtain ⟨hfirst, hsecond, -⟩ := hpair
    refine .inr (.inr ⟨first, second, rest, rfl, ?_, ?_, hfirst second List.mem_cons_self, ?_⟩)
    · exact mem_presentGroups.mp (hgroups ▸ List.mem_cons_self)
    · exact mem_presentGroups.mp (hgroups ▸ List.mem_cons_of_mem _ List.mem_cons_self)
    · intro g hg
      obtain ⟨key, hkey⟩ := hmem hg
      rw [hgroups, List.mem_cons, List.mem_cons] at hkey
      obtain rfl | rfl | hrest := hkey
      · exact .inl rfl
      · exact .inr le_rfl
      · exact .inr (hsecond _ hrest).le

theorem Names.unique {key' : String} (h : k.Names g key) (h' : k.Names g key') : key = key' := by
  rw [← firstKey_eq_some_iff] at h h'
  exact Option.some_inj.mp (h.symm.trans h')

theorem FirstTwo.has_first {first second : KeyGroup × String} (h : k.FirstTwo first second) :
    k.Has first.1 :=
  has_iff.mpr ⟨_, h.names_first⟩

theorem FirstTwo.has_second {first second : KeyGroup × String} (h : k.FirstTwo first second) :
    k.Has second.1 :=
  has_iff.mpr ⟨_, h.names_second⟩

theorem FirstTwo.not_only {first second : KeyGroup × String} (h : k.FirstTwo first second) :
    ¬ k.Only g := by
  intro honly
  have heq := (honly.eq _ h.has_first).trans (honly.eq _ h.has_second).symm
  exact absurd h.order (heq ▸ lt_irrefl _)

theorem FirstTwo.unique {first second first' second' : KeyGroup × String}
    (h : k.FirstTwo first second) (h' : k.FirstTwo first' second') :
    first = first' ∧ second = second' := by
  have horder := h.order
  have horder' := h'.order
  have hgroup : first.1 = first'.1 := by
    rcases h.others _ h'.has_first with heq | hle
    · exact heq.symm
    · rcases h'.others _ h.has_first with heq | hle'
      · exact heq
      · omega
  have hgroup' : second.1 = second'.1 := by
    apply KeyGroup.rank_injective
    rw [hgroup] at horder
    rcases h.others _ h'.has_second with heq | hle
    · rw [heq, hgroup] at horder'
      omega
    · rcases h'.others _ h.has_second with heq | hle'
      · rw [heq] at horder
        omega
      · omega
  refine ⟨Prod.ext hgroup ?_, Prod.ext hgroup' ?_⟩
  · exact h.names_first.unique (hgroup ▸ h'.names_first)
  · exact h.names_second.unique (hgroup' ▸ h'.names_second)

end PositionKeys

end Drafting
