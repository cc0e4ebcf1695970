/-!
# Names without regard to case

Every name the engine compares is compared with the letters `A`–`Z` and `a`–`z` identified and all
other characters told apart.

* `sameName_iff`: two names are the same exactly when their folded forms are equal.
* `fold_fold`: folding a folded name changes nothing.
* `utf8ByteSize_fold`: folding keeps the size in bytes.
-/

namespace KeywordEngine.Text

/-- `s` with each of the letters `A`–`Z` replaced by its small form and all else kept. -/
def fold (s : String) : String := s.map Char.toLower

/-- Whether two names differ at most in the case of the letters `A`–`Z`. -/
def sameName (a b : String) : Bool := fold a == fold b

theorem sameName_iff {a b : String} : sameName a b = true ↔ fold a = fold b := by
  simp [sameName]

@[simp] theorem sameName_refl (a : String) : sameName a a = true := by simp [sameName]

theorem sameName_comm (a b : String) : sameName a b = sameName b a := by
  rw [Bool.eq_iff_iff, sameName_iff, sameName_iff, eq_comm]

/-- Names are the same where their characters agree in their small forms. -/
theorem sameName_of_toList {a b : String}
    (h : a.toList.map Char.toLower = b.toList.map Char.toLower) : sameName a b = true := by
  rw [sameName_iff]
  apply String.ext
  rw [fold, fold, String.toList_map, String.toList_map, h]

private theorem toLower_toLower (c : Char) : c.toLower.toLower = c.toLower := by
  unfold Char.toLower
  split
  · rename_i h
    split
    · rename_i h'
      exfalso
      simp only [ge_iff_le, UInt32.le_iff_toNat_le, UInt32.toNat_add] at h h'
      have := h.1
      have := h.2
      have := h'.2
      simp at *
      omega
    · rfl
  · rfl

@[simp] theorem fold_fold (s : String) : fold (fold s) = fold s := by
  apply String.ext
  simp only [fold, String.toList_map, List.map_map]
  exact List.map_congr_left fun c _ => toLower_toLower c

theorem fold_append (s t : String) : fold (s ++ t) = fold s ++ fold t := by
  apply String.ext
  simp only [fold, String.toList_map, String.toList_append, List.map_append]

/-! ## Sizes -/

private theorem utf8Size_toLower (c : Char) : c.toLower.utf8Size = c.utf8Size := by
  unfold Char.toLower
  split
  · rename_i h
    have small : c.val ≤ 127 := by
      simp only [ge_iff_le, UInt32.le_iff_toNat_le] at h ⊢
      have := h.2
      simp at *
      omega
    rw [Char.utf8Size_eq_one_iff.2 small, Char.utf8Size_eq_one_iff]
    simp only [ge_iff_le, UInt32.le_iff_toNat_le, UInt32.toNat_add] at h ⊢
    have := h.2
    simp at *
    omega
  · rfl

private theorem utf8ByteSize_map_toLower (cs : List Char) :
    (String.ofList (cs.map Char.toLower)).utf8ByteSize = (String.ofList cs).utf8ByteSize := by
  induction cs with
  | nil => rfl
  | cons c rest ih => simp [String.ofList_cons, utf8Size_toLower, ih]

theorem utf8ByteSize_fold (s : String) : (fold s).utf8ByteSize = s.utf8ByteSize := by
  have h := utf8ByteSize_map_toLower s.toList
  rwa [← String.toList_map, String.ofList_toList, String.ofList_toList] at h

end KeywordEngine.Text
