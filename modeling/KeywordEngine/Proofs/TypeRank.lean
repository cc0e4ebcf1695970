import KeywordEngine.Proofs.Coercion
import KeywordEngine.Proofs.EnumConstraint

/-!
# Ranks of type names

A constraint has one layer of arrays for each group at the end of the type name that it was read
from, and the name that it is shown as stands for the same constraint again.

* `TypeName.HasRank`: how many groups end a text, blanks around them aside.
* `TypeName.hasRank_iff`: these are the groups that `splitRank` counts.
* `TypeConstraint.layers`: the layers of arrays around a constraint.
* `TypeConstraint.ofElementName_text`: a shown name is read as what it was shown for.
* `TypeConstraint.canonical_ofTypeName`: the layers of a decoded type name, and any name read back.
-/

namespace KeywordEngine

namespace TypeName

/-! ## Groups at the end of a text -/

/-- Nothing but blanks. -/
def IsGap (s : String) : Prop := ∀ c ∈ s.toList, Text.isBlank c = true

/-- Exactly so many groups `[]` end a text, where blanks may stand before and after each of them. -/
inductive HasRank : String → Nat → Prop
  | name {s : String} (bare : ∀ before gap, IsGap gap → s ≠ before ++ "[]" ++ gap) : HasRank s 0
  | group {before gap : String} {rank : Nat} (inner : HasRank before rank) (blank : IsGap gap) :
      HasRank (before ++ "[]" ++ gap) (rank + 1)

/-- Blanks after the last group are passed over. -/
private theorem countRank_append {gap : List Char} (h : ∀ c ∈ gap, Text.isBlank c = true)
    (cs : List Char) : countRank (gap ++ cs) = countRank cs := by
  induction gap with
  | nil => rfl
  | cons c rest ih =>
    have hc : Text.isBlank c = true := h c List.mem_cons_self
    have hrest := ih fun d hd => h d (List.mem_cons_of_mem _ hd)
    rw [List.cons_append, ← hrest]
    generalize rest ++ cs = tail
    conv => lhs; unfold countRank
    split
    · rename_i heq
      obtain ⟨rfl, -⟩ := List.cons.inj heq
      simp [Text.isBlank] at hc
    · rename_i heq
      obtain ⟨rfl, rfl⟩ := List.cons.inj heq
      rw [if_pos hc]
    · rename_i heq
      cases heq

private theorem countRank_group {before gap : String} (h : IsGap gap) :
    (splitRank (before ++ "[]" ++ gap)).1 = (splitRank before).1 + 1 := by
  have hreverse : (before ++ "[]" ++ gap).toList.reverse =
      gap.toList.reverse ++ ']' :: '[' :: before.toList.reverse := by
    simp
  show (countRank (before ++ "[]" ++ gap).toList.reverse).1 = _
  rw [hreverse, countRank_append fun c hc => h c (List.mem_reverse.1 hc)]
  rfl

/-- Where a group is counted there is one, with nothing but blanks after it. -/
private theorem exists_group {cs : List Char} {rank : Nat} (h : (countRank cs).1 = rank + 1) :
    ∃ gap rest, (∀ c ∈ gap, Text.isBlank c = true) ∧ cs = gap ++ ']' :: '[' :: rest ∧
      (countRank rest).1 = rank := by
  fun_induction countRank cs with
  | case1 rest ih => exact ⟨[], rest, by simp, rfl, Nat.succ.inj h⟩
  | case2 c rest _ hc ih =>
    obtain ⟨gap, tail, hgap, rfl, htail⟩ := ih h
    exact ⟨c :: gap, tail, List.forall_mem_cons.2 ⟨hc, hgap⟩, rfl, htail⟩
  | case3 c rest _ hc => cases h
  | case4 => cases h

private theorem exists_eq_append_group {s : String} {rank : Nat} (h : (splitRank s).1 = rank + 1) :
    ∃ before gap, IsGap gap ∧ s = before ++ "[]" ++ gap ∧ (splitRank before).1 = rank := by
  obtain ⟨gap, rest, hgap, hcs, hrest⟩ := exists_group h
  refine ⟨.ofList rest.reverse, .ofList gap.reverse, ?_, ?_, ?_⟩
  · simpa [IsGap] using hgap
  · rw [← String.toList_inj, ← List.reverse_inj, hcs]
    simp
  · rw [← hrest]
    simp [splitRank]

/-- The groups that end a text are those that `splitRank` counts. -/
theorem hasRank_iff {s : String} {rank : Nat} : HasRank s rank ↔ (splitRank s).1 = rank := by
  constructor
  · intro h
    induction h with
    | @name s bare =>
      cases hrank : (splitRank s).1 with
      | zero => rfl
      | succ rank =>
        obtain ⟨before, gap, hgap, rfl, -⟩ := exists_eq_append_group hrank
        exact absurd rfl (bare before gap hgap)
    | group inner blank ih => rw [countRank_group blank, ih]
  · intro h
    induction rank generalizing s with
    | zero =>
      refine .name fun before gap hgap => ?_
      rintro rfl
      rw [countRank_group hgap] at h
      cases h
    | succ rank ih =>
      obtain ⟨before, gap, hgap, rfl, hbefore⟩ := exists_eq_append_group h
      exact .group (ih hbefore) hgap

theorem withRank_succ (s : String) (rank : Nat) :
    withRank s (rank + 1) = withRank s rank ++ "[]" := by
  simp [withRank, List.replicate_succ', String.join_append, String.append_assoc]

end TypeName

namespace TypeConstraint

/-! ## Layers -/

/-- The layers of arrays around a constraint. -/
def layers : TypeConstraint → Nat
  | array element => element.layers + 1
  | _ => 0

theorem layers_arrays (c : TypeConstraint) (rank : Nat) :
    (c.arrays rank).layers = c.layers + rank := by
  induction rank with
  | zero => rfl
  | succ rank ih =>
    show (c.arrays rank).layers + 1 = _
    rw [ih, Nat.add_assoc]

theorem layers_ofElementName (name : String) (members : SortedSet) :
    (ofElementName name members).layers = 0 := by
  unfold ofElementName
  split
  case h_9 => split <;> rfl
  all_goals rfl

theorem text_arrays (c : TypeConstraint) (rank : Nat) :
    (c.arrays rank).text = TypeName.withRank c.text rank := by
  induction rank with
  | zero => exact (TypeName.withRank_eq_self.2 rfl).symm
  | succ rank ih =>
    show (c.arrays rank).text ++ "[]" = _
    rw [ih, TypeName.withRank_succ]

/-! ## Shown names -/

/-- A name that is read as it stands: nothing of it is trimmed, and it ends in no group. -/
structure IsElementName (name : String) : Prop where
  trimmed : Text.trim name = name
  ungrouped : TypeName.Ungrouped name.toList.reverse

theorem isElementName_splitRank (typeName : String) :
    IsElementName (TypeName.splitRank typeName).2 :=
  ⟨Text.trim_eq_self (Text.bareEnds_trim _), TypeName.ungrouped_splitRank typeName⟩

/-- The engine shows each of its own types under one of the names that it knows it by. -/
theorem builtin?_text {name : String} {c : TypeConstraint} (h : builtin? name = some c) :
    IsElementName c.text ∧ builtin? c.text = some c := by
  have hshown : ∀ shown ∈ ["object", "bool", "int", "string", "hashtable"],
      IsElementName shown := by
    intro shown hmem
    simp only [List.mem_cons, List.not_mem_nil, or_false] at hmem
    rcases hmem with rfl | rfl | rfl | rfl | rfl <;>
      exact ⟨by decide +kernel, by decide +kernel, by decide +kernel⟩
  unfold builtin? at h
  split at h <;> cases h <;> exact ⟨hshown _ (by decide), by with_unfolding_all rfl⟩

/-- A shown name is read as what it was shown for. -/
theorem ofElementName_text {name : String} (hname : IsElementName name) (members : SortedSet) :
    IsElementName (ofElementName name members).text ∧
      ofElementName (ofElementName name members).text members = ofElementName name members := by
  rw [ofElementName_eq name]
  cases hbuiltin : builtin? name with
  | some known =>
    obtain ⟨hshown, hread⟩ := builtin?_text hbuiltin
    exact ⟨hshown, by rw [Option.getD_some, ofElementName_eq, hread, Option.getD_some]⟩
  | none =>
    -- neither an enum nor an unknown type changes its name
    have htext : (if members.isEmpty then unchecked name else enum name members).text = name := by
      split <;> rfl
    rw [Option.getD_none, htext, ofElementName_eq, hbuiltin, Option.getD_none]
    exact ⟨hname, rfl⟩

theorem ofTypeName_text (typeName : String) (members : SortedSet) :
    ofTypeName (ofTypeName typeName members).text members = ofTypeName typeName members := by
  have hname := isElementName_splitRank typeName
  unfold ofTypeName
  generalize TypeName.splitRank typeName = split at hname ⊢
  obtain ⟨rank, name⟩ := split
  obtain ⟨hshown, hread⟩ := ofElementName_text hname members
  simp only
  rw [text_arrays, TypeName.splitRank_withRank hshown.ungrouped]
  simp only
  rw [hshown.trimmed, hread]

/-- The layers of a constraint are the groups of its type name. -/
theorem layers_ofTypeName (typeName : String) (members : SortedSet) :
    (ofTypeName typeName members).layers = (TypeName.splitRank typeName).1 := by
  show ((ofElementName (TypeName.splitRank typeName).2 members).arrays _).layers = _
  rw [layers_arrays, layers_ofElementName, Nat.zero_add]
  rfl

/-- The constraint of a decoded signature has exactly one layer of arrays for each group at the end
of the signature. The name that a constraint is shown as stands for that constraint, among the same
members of an enum. -/
theorem canonical_ofTypeName (members : SortedSet) :
    (∀ signature rank, TypeName.HasRank signature rank ↔
      (ofTypeName (TypeName.decode signature) members).layers = rank) ∧
    ∀ typeName, ofTypeName (ofTypeName typeName members).text members =
      ofTypeName typeName members := by
  refine ⟨fun signature rank => ?_, fun typeName => ofTypeName_text typeName members⟩
  rw [TypeName.hasRank_iff, layers_ofTypeName, TypeName.splitRank_decode]

end TypeConstraint

end KeywordEngine
