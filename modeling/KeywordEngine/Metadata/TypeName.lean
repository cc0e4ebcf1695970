import KeywordEngine.Text.Blank

/-!
# Type names

A type name is the name of a type followed by one `[]` group per array layer. Blanks may stand
around the name and around each group.

* `splitRank s`: the number of trailing groups and the trimmed name before them.
* `decode s`: the engine's name for the type that a raw signature denotes, with its rank kept.
* `simpleName s`: what follows the last dot or plus sign.
* `splitRank_withRank`: groups put behind a name are counted and taken off again.
* `splitRank_decode`: decoding keeps the rank.
* `decode_eq_withRank`: in a decoded name, `elementName` and `splitRank` read the same groups.
* `elementName_eq_iff`: `elementName` removes all groups at the end, and nothing else.
-/

namespace KeywordEngine.TypeName

/-- The part of a qualified name after its last dot or plus sign. -/
def simpleName (s : String) : String :=
  String.ofList (s.toList.reverse.takeWhile fun c => c ≠ '.' ∧ c ≠ '+').reverse

/-- The trailing `[]` groups of a text, read from its end: their number and what precedes them. -/
def countRank : List Char → Nat × List Char
  | ']' :: '[' :: rest => ((countRank rest).1 + 1, (countRank rest).2)
  | c :: rest => if Text.isBlank c then countRank rest else (0, c :: rest)
  | [] => (0, [])

/-- The number of `[]` groups at the end of `s` and the trimmed text before them. -/
def splitRank (s : String) : Nat × String :=
  let (rank, name) := countRank s.toList.reverse
  (rank, Text.trim (String.ofList name.reverse))

/-- `s` followed by `rank` groups `[]`. -/
def withRank (s : String) (rank : Nat) : String :=
  s ++ String.join (List.replicate rank "[]")

/-- The engine's name for a type of the base library. -/
def shortName? : String → Option String
  | "System.String" => some "string"
  | "System.Int32" | "System.Int64" | "System.Int16" | "System.UInt32" | "System.Byte" =>
    some "int"
  | "System.Boolean" => some "bool"
  | "System.Management.Automation.SwitchParameter" => some "switch"
  | "System.Collections.Hashtable" => some "hashtable"
  | "System.Object" => some "object"
  | _ => none

/-- The engine's name for the type with the raw signature `s`: a short name for a type of the base
library, the simple name for any other, and the same array rank. -/
def decode (s : String) : String :=
  let (rank, name) := splitRank s
  withRank ((shortName? name).getD (simpleName name)) rank

/-- A text read from its end, without the `[]` groups that end it. -/
private def dropGroups : List Char → List Char
  | ']' :: '[' :: rest => dropGroups rest
  | cs => cs

/-- `s` without the `[]` groups that end it. -/
def elementName (s : String) : String := String.ofList (dropGroups s.toList.reverse).reverse

/-! ## Ranks -/

/-- A text, read from its end, that ends neither in a blank nor in a group. -/
structure Ungrouped (cs : List Char) : Prop where
  bare : cs.head?.any Text.isBlank = false
  ungrouped : ¬ [']', '['] <+: cs

/-- `rank` groups, read from their end. -/
private def groups (rank : Nat) : List Char := (List.replicate rank [']', '[']).flatten

private theorem toList_withRank (s : String) (rank : Nat) :
    (withRank s rank).toList.reverse = groups rank ++ s.toList.reverse := by
  have hjoin : (String.join (List.replicate rank "[]")).toList.reverse = groups rank := by
    rw [String.toList_join, List.flatMap_def, List.map_replicate, List.reverse_flatten,
      List.map_replicate, List.reverse_replicate]
    rfl
  rw [withRank, String.toList_append, List.reverse_append, hjoin]

theorem withRank_eq_self {s : String} {rank : Nat} : withRank s rank = s ↔ rank = 0 := by
  constructor
  · intro h
    have htoList := toList_withRank s rank
    rw [h, List.self_eq_append_left] at htoList
    cases rank with
    | zero => rfl
    | succ rank => cases htoList
  · rintro rfl
    simp [withRank, String.join]

private theorem countRank_groups (rank : Nat) (cs : List Char) :
    countRank (groups rank ++ cs) = ((countRank cs).1 + rank, (countRank cs).2) := by
  induction rank with
  | zero => rfl
  | succ rank ih =>
    show ((countRank (groups rank ++ cs)).1 + 1, (countRank (groups rank ++ cs)).2) = _
    rw [ih, Nat.add_assoc]

private theorem dropGroups_groups (rank : Nat) (cs : List Char) :
    dropGroups (groups rank ++ cs) = dropGroups cs := by
  induction rank with
  | zero => rfl
  | succ rank ih => exact ih

/-! ## Element names -/

/-- A name that ends in a group. -/
def EndsInGroup (s : String) : Prop := ['[', ']'] <:+ s.toList

private theorem endsInGroup_iff {s : String} : EndsInGroup s ↔ [']', '['] <+: s.toList.reverse :=
  List.reverse_prefix.symm

private theorem exists_groups (cs : List Char) : ∃ rank, cs = groups rank ++ dropGroups cs := by
  fun_induction dropGroups cs with
  | case1 rest ih =>
    obtain ⟨rank, hrest⟩ := ih
    refine ⟨rank + 1, ?_⟩
    show _ = ']' :: '[' :: (groups rank ++ dropGroups rest)
    rw [← hrest]
  | case2 cs h => exact ⟨0, rfl⟩

private theorem not_isPrefix_dropGroups (cs : List Char) : ¬ [']', '['] <+: dropGroups cs := by
  fun_induction dropGroups cs with
  | case1 rest ih => exact ih
  | case2 cs h =>
    rintro ⟨rest, hrest⟩
    exact h rest hrest.symm

private theorem dropGroups_eq_self {cs : List Char} (h : ¬ [']', '['] <+: cs) :
    dropGroups cs = cs := by
  unfold dropGroups
  split
  · exact absurd ⟨_, rfl⟩ h
  · rfl

/-- `elementName` removes all groups at the end, and nothing else. -/
theorem elementName_eq_iff {s base : String} :
    elementName s = base ↔ (∃ rank, s = withRank base rank) ∧ ¬ EndsInGroup base := by
  rw [endsInGroup_iff]
  constructor
  · rintro rfl
    unfold elementName
    rw [String.toList_ofList, List.reverse_reverse]
    refine ⟨?_, not_isPrefix_dropGroups _⟩
    obtain ⟨rank, hrank⟩ := exists_groups s.toList.reverse
    refine ⟨rank, String.toList_inj.1 (List.reverse_inj.1 ?_)⟩
    rw [toList_withRank, String.toList_ofList, List.reverse_reverse, ← hrank]
  · rintro ⟨⟨rank, rfl⟩, hbase⟩
    rw [elementName, toList_withRank, dropGroups_groups, dropGroups_eq_self hbase,
      List.reverse_reverse, String.ofList_toList]

/-! ## Decoded names -/

namespace Ungrouped

variable {cs : List Char}

private theorem countRank_eq (h : Ungrouped cs) : countRank cs = (0, cs) := by
  unfold countRank
  split
  · exact absurd ⟨_, rfl⟩ h.ungrouped
  · rename_i c rest _
    have hbare : Text.isBlank c = false := by simpa using h.bare
    simp [hbare]
  · rfl

private theorem of_isPrefix {start : List Char} (h : Ungrouped cs) (hstart : start <+: cs) :
    Ungrouped start where
  bare := by
    obtain ⟨rest, rfl⟩ := hstart
    cases start with
    | nil => rfl
    | cons c tail => exact h.bare
  ungrouped hgroup := h.ungrouped (hgroup.trans hstart)

end Ungrouped

private theorem ungrouped_countRank (cs : List Char) : Ungrouped (countRank cs).2 := by
  fun_induction countRank cs with
  | case1 rest ih => exact ih
  | case2 c rest h hc ih => exact ih
  | case3 c rest h hc =>
    refine ⟨by simpa using hc, ?_⟩
    rintro ⟨tail, htail⟩
    obtain ⟨rfl, rfl⟩ := List.cons.inj htail
    exact h tail rfl rfl
  | case4 => exact ⟨rfl, by simp⟩

/-- The name before the groups of a text has no groups of its own. -/
theorem ungrouped_splitRank (s : String) : Ungrouped (splitRank s).2.toList.reverse := by
  have hrest := ungrouped_countRank s.toList.reverse
  unfold splitRank Text.trim Text.trimEnd
  simp only [String.toList_ofList, List.reverse_reverse]
  generalize (countRank s.toList.reverse).2 = rest at hrest ⊢
  have hstart : (rest.reverse.dropWhile Text.isBlank).reverse <+: rest := by
    simpa using List.reverse_prefix.2 (List.dropWhile_suffix (l := rest.reverse) Text.isBlank)
  have hungrouped := hrest.of_isPrefix hstart
  -- nothing is left to trim at the end
  cases hkept : (rest.reverse.dropWhile Text.isBlank).reverse with
  | nil => exact ⟨rfl, by simp⟩
  | cons c tail =>
    rw [hkept] at hungrouped
    rwa [List.dropWhile_cons_of_neg (by simpa using hungrouped.bare)]

private theorem ungrouped_shortName? {s short : String} (h : shortName? s = some short) :
    Ungrouped short.toList.reverse := by
  unfold shortName? at h
  split at h <;> cases h <;> exact ⟨by decide, by decide⟩

/-- What is decoded is a name without groups of its own, and the groups of the signature. -/
private theorem exists_decode_eq (s : String) :
    ∃ name, Ungrouped name.toList.reverse ∧ decode s = withRank name (splitRank s).1 := by
  have hname := ungrouped_splitRank s
  unfold decode
  generalize splitRank s = split at hname ⊢
  obtain ⟨rank, name⟩ := split
  refine ⟨(shortName? name).getD (simpleName name), ?_, rfl⟩
  cases hshort : shortName? name with
  | some short => exact ungrouped_shortName? hshort
  | none =>
    refine hname.of_isPrefix ?_
    simp [simpleName, List.takeWhile_prefix]

/-- Groups put behind a name are counted and taken off again. -/
theorem splitRank_withRank {s : String} (h : Ungrouped s.toList.reverse) (rank : Nat) :
    splitRank (withRank s rank) = (rank, Text.trim s) := by
  rw [splitRank, toList_withRank, countRank_groups, h.countRank_eq]
  simp

/-- Decoding keeps the rank. -/
theorem splitRank_decode (s : String) : (splitRank (decode s)).1 = (splitRank s).1 := by
  obtain ⟨name, hname, hdecode⟩ := exists_decode_eq s
  rw [hdecode, splitRank_withRank hname]

/-- In a decoded name, `elementName` and `splitRank` read the same groups. -/
theorem decode_eq_withRank (s : String) : ∃ rank,
    decode s = withRank (elementName (decode s)) rank ∧
      splitRank (decode s) = (rank, Text.trim (elementName (decode s))) := by
  obtain ⟨name, hname, hdecode⟩ := exists_decode_eq s
  have helement : elementName (decode s) = name :=
    elementName_eq_iff.2 ⟨⟨_, hdecode⟩, fun h => hname.ungrouped (endsInGroup_iff.1 h)⟩
  rw [helement, hdecode]
  exact ⟨_, rfl, splitRank_withRank hname _⟩

end KeywordEngine.TypeName
