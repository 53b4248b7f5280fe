import Drafting.Proofs.AnchorKey
import Drafting.Proofs.Context.Reachable
import Drafting.Proofs.Text.Trim

/-!
# Dotted references

A text is trimmed before it is cut into the name of a node and a key, and the key is
trimmed once more when it is read. The two agree: what the first trimming takes away, the
second would have taken as well. A name has no dot, so the cut is at the first dot and
dots within the key do no harm. As nodes are registered under valid names only, each of
them can be reached in this way, by every key that is not blank.
-/

namespace Drafting

namespace Name

theorem notMem_dot_of_isValidList {cs : List Char} (h : isValidList cs = true) : '.' ∉ cs := by
  intro hm
  have := isConstituent_of_isValidList h '.' hm
  simp [isConstituent, isInitial] at this

theorem splitRun_append {name : List Char} (h : isValidList name = true) (key : List Char) :
    splitRun (name ++ '.' :: key) = (name, '.' :: key) := by
  have hname := isConstituent_of_isValidList h
  have hdot : isConstituent '.' = false := by decide
  rw [splitRun, List.takeWhile_append_of_pos hname, List.dropWhile_append_of_pos hname,
    List.takeWhile_cons_of_neg (by simp [hdot]), List.dropWhile_cons_of_neg (by simp [hdot]),
    List.append_nil]

/-- Of a name, a dot and a key that is not blank, trimming shortens the key only. -/
theorem trim_append {name key : List Char} (hname : isValidList name = true)
    (hkey : key.rdropWhile Text.isBlank ≠ []) :
    Text.trim (name ++ '.' :: key) = name ++ '.' :: key.rdropWhile Text.isBlank := by
  have hself : key.rdropWhile Text.isBlank ++ key.rtakeWhile Text.isBlank = key :=
    List.rdropWhile_append_rtakeWhile
  obtain ⟨c, cs, rfl⟩ := List.exists_cons_of_ne_nil (l := name) (by rintro rfl; cases hname)
  have hc := isBlank_of_isConstituent (isConstituent_of_isValidList hname c List.mem_cons_self)
  calc Text.trim (c :: cs ++ '.' :: key)
      = Text.trim (c :: cs ++ '.' :: key.rdropWhile Text.isBlank ++
          key.rtakeWhile Text.isBlank) := by
        simp only [List.cons_append, List.append_assoc, hself]
    _ = Text.trim (c :: cs ++ '.' :: key.rdropWhile Text.isBlank) :=
        Text.trim_append_of_blank _ fun c hc => List.mem_rtakeWhile_imp hc
    _ = c :: cs ++ '.' :: key.rdropWhile Text.isBlank := by
        refine Text.trim_of_ends hc fun h => ?_
        have hlast := List.rdropWhile_last_not Text.isBlank key hkey
        simpa [List.getLast_append_of_ne_nil, List.getLast_cons hkey] using hlast

/-- A text is cut into a name and a key exactly when, trimmed, it is the name, a dot and
the key. -/
theorem splitReference?_eq_some_iff {s name key : String} :
    splitReference? s = some (name, key) ↔
      String.ofList (Text.trim s.toList) = name ++ "." ++ key ∧ isValid name = true ∧
        key ≠ "" := by
  constructor
  · intro h
    unfold splitReference? at h
    split at h
    case h_1 n k hsplit =>
      obtain ⟨hn, hk⟩ := Prod.mk.inj hsplit
      have htrim : Text.trim s.toList = n ++ '.' :: k := by
        rw [← hn, ← hk, List.takeWhile_append_dropWhile]
      split_ifs at h with hvalid
      cases h
      simpa [htrim, isValid, String.ext_iff] using hvalid
    case h_2 => cases h
  · rintro ⟨htrim, hname, hkey⟩
    have htrim : Text.trim s.toList = name.toList ++ '.' :: key.toList := by
      simpa using congrArg String.toList htrim
    have hkey : key.toList.isEmpty = false := by simpa using hkey
    have hname' : isValidList name.toList = true := hname
    simp only [splitReference?, htrim, splitRun_append hname, hname', hkey]
    simp

end Name

namespace Position

variable {K : Type} [Scalar K]

/-- What stands after the dot is read as the key that it is without the dot. -/
theorem ofReference_of_isValid {name key : String} (hname : Name.isValid name = true)
    (hkey : ∃ c ∈ key.toList, Text.isBlank c = false) :
    (ofReference (name ++ "." ++ key) : Except (PositionError K) (Position K)) =
      .ok (anchor name key) := by
  have hne : key.toList.rdropWhile Text.isBlank ≠ [] := by
    rw [ne_eq, List.rdropWhile_eq_nil_iff]
    obtain ⟨c, hc, hb⟩ := hkey
    intro h
    rw [h c hc] at hb
    cases hb
  let tail := String.ofList (key.toList.rdropWhile Text.isBlank)
  have hsplit : Name.splitReference? (name ++ "." ++ key) = some (name, tail) := by
    have htrim := Name.trim_append hname hne
    refine Name.splitReference?_eq_some_iff.mpr ⟨?_, hname, by simpa [tail] using hne⟩
    simpa [String.ext_iff, tail] using htrim
  have hparse : (AnchorKey.parse tail : AnchorKey K) = AnchorKey.parse key := by
    simp only [AnchorKey.parse, tail, String.toList_ofList, Text.trim_rdropWhile]
  simp only [ofReference, hsplit, anchor, hparse]

end Position

namespace Frame

variable {K : Type} [Scalar K] {f : Frame K} {name key : String} {node : Node K}

theorem resolve_anchor_of_ok {p : Point K} (hnode : f.node? name = some node)
    (hp : node.anchor key = .ok p) (hfinite : p.isFinite = true) :
    f.resolve (Position.anchor name key).spec = .ok p := by
  rw [Node.anchor] at hp
  simp only [Position.anchor, Position.ofSpec, resolve, hnode, hp, settle, hfinite, if_true]

theorem resolve_anchor_of_error {e : AnchorError K} (hnode : f.node? name = some node)
    (he : node.anchor key = .error e) :
    f.resolve (Position.anchor name key).spec = .error (.anchor e) := by
  rw [Node.anchor] at he
  simp only [Position.anchor, Position.ofSpec, resolve, hnode, he]

end Frame

namespace Context

/-- References are cut at their first dot, and each named node answers to all references
to it, under every transform and from every current point. -/
theorem resolve_reference {K S : Type} [Scalar K] [Sink K S] :
    (∀ s name key : String, Name.splitReference? s = some (name, key) ↔
      String.ofList (Text.trim s.toList) = name ++ "." ++ key ∧ Name.isValid name = true ∧
        key ≠ "") ∧
    (∀ name : String, Name.isValid name = true → '.' ∉ name.toList) ∧
    ∀ c : Context K S, c.Reachable → ∀ (name : String) (node : Node K) (key : String),
      c.node? name = some node → (∃ ch ∈ key.toList, Text.isBlank ch = false) →
      ∃ p : Position K, Position.ofReference (name ++ "." ++ key) = .ok p ∧
        ∀ (t : Transform K) (q : Point K),
          let f : Frame K := ⟨t, q, c.node?⟩
          (∀ x, node.anchor key = .ok x → x.isFinite = true → f.resolve p.spec = .ok x) ∧
          ∀ e, node.anchor key = .error e → f.resolve p.spec = .error (.anchor e) := by
  refine ⟨fun s name key => Name.splitReference?_eq_some_iff,
    fun name => Name.notMem_dot_of_isValidList, ?_⟩
  intro c hc name node key hnode hkey
  obtain ⟨-, hname⟩ := hc.namesAgree name node hnode
  refine ⟨Position.anchor name key, Position.ofReference_of_isValid hname hkey,
    fun t q => ⟨fun x hx hfinite => ?_, fun e he => ?_⟩⟩
  · exact Frame.resolve_anchor_of_ok hnode hx hfinite
  · exact Frame.resolve_anchor_of_error hnode he

set_option maxRecDepth 4000 in
/-- A key with a dot, blanks and a percent sign comes to the node, which does not know it,
while the transform and the current point are not those in force. -/
theorem resolve_reference_dotted :
    let corner (x y : Float) : Position Float := ⟨.cartesian x y, true⟩
    let ops : List (Operation Float) :=
      [.call (.rect (corner 0 0) (corner 2 1) ⟨some "box", none, Style.empty⟩)]
    let c : Context Float (Recording Float) :=
      (Context.start Recording.empty 15 Style.empty).run ops
    let f : Frame Float := ⟨⟨Matrix.scaling 2 2⟩, ⟨3, 4⟩, c.node?⟩
    c.Reachable ∧ (∃ ch ∈ " 1.5 % ".toList, Text.isBlank ch = false) ∧
      ∃ node p, c.node? "box" = some node ∧
        Position.ofReference ("box" ++ "." ++ " 1.5 % ") = .ok p ∧
        f.resolve p.spec = .error (.anchor (.anchorNotFound "1.5 %" (some "box"))) := by
  intro corner ops c f
  have hc : c.Reachable := (Reachable.start _ _ _).run (by simp [ops, Operation.Admissible])
  have hkey : ∃ ch ∈ " 1.5 % ".toList, Text.isBlank ch = false := ⟨'1', by decide, by decide⟩
  obtain ⟨node, hnode, hanchor⟩ : ∃ node, c.node? "box" = some node ∧
      node.anchor " 1.5 % " = .error (.anchorNotFound "1.5 %" (some "box")) := ⟨_, rfl, rfl⟩
  obtain ⟨p, hp, hresolve⟩ := resolve_reference.2.2 c hc "box" node " 1.5 % " hnode hkey
  exact ⟨hc, hkey, node, p, hnode, hp, (hresolve _ _).2 _ hanchor⟩

end Context

end Drafting
