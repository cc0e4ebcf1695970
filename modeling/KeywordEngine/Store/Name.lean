import KeywordEngine.Text.Case

/-!
# Names in the store

The store compares the names of modules by a key: the folded name up to and including its first NUL
character, and after that the size of the whole name in bytes.

* `NameKey.precedes_trans`, `NameKey.precedes_total`: keys are in an order.
* `NameKey.ofName_eq_iff`: names without NUL have one key exactly when they differ at most in case.
* `NameKey.precedes_ofName_iff`: names without NUL are ordered by their folded forms.
-/

namespace KeywordEngine.Store

/-- The characters up to and including the first NUL. -/
def throughNul : List Char → List Char
  | [] => []
  | c :: rest => if c = '\x00' then [c] else c :: throughNul rest

/-- What the store compares of a name. -/
structure NameKey where
  /-- The folded name up to and including its first NUL. -/
  start : String
  /-- The size of the name in bytes. -/
  size : Nat
  deriving DecidableEq, Repr

namespace NameKey

/-- The key of a name. -/
def ofName (name : String) : NameKey :=
  ⟨String.ofList (throughNul (Text.fold name).toList), name.utf8ByteSize⟩

/-- Whether `a` stands before `b` or is equal to it: first by start, then by size. -/
def precedes (a b : NameKey) : Bool := a.start < b.start || a.start == b.start && a.size ≤ b.size

/-! ## The order of keys -/

/-- Names that differ at most in case have one key. -/
theorem ofName_eq_of_sameName {a b : String} (h : Text.sameName a b = true) :
    ofName a = ofName b := by
  rw [Text.sameName_iff] at h
  unfold ofName
  rw [h, ← Text.utf8ByteSize_fold a, h, Text.utf8ByteSize_fold]

theorem precedes_iff {a b : NameKey} :
    a.precedes b = true ↔ a.start < b.start ∨ a.start = b.start ∧ a.size ≤ b.size := by
  simp [precedes]

theorem precedes_trans (a b c : NameKey) (hab : a.precedes b = true) (hbc : b.precedes c = true) :
    a.precedes c = true := by
  rw [precedes_iff] at *
  obtain hab | ⟨hab, hsize⟩ := hab
  · obtain hbc | ⟨hbc, -⟩ := hbc
    · exact .inl (String.lt_trans hab hbc)
    · exact .inl (hbc ▸ hab)
  · obtain hbc | ⟨hbc, hsize'⟩ := hbc
    · exact .inl (hab ▸ hbc)
    · exact .inr ⟨hab.trans hbc, Nat.le_trans hsize hsize'⟩

theorem precedes_total (a b : NameKey) : (a.precedes b || b.precedes a) = true := by
  rw [Bool.or_eq_true, precedes_iff, precedes_iff]
  by_cases heq : a.start = b.start
  · obtain hsize | hsize := Nat.le_total a.size b.size
    · exact .inl (.inr ⟨heq, hsize⟩)
    · exact .inr (.inr ⟨heq.symm, hsize⟩)
  · obtain hle | hle := Std.le_total (a := a.start) (b := b.start)
    · exact .inl (.inl (Std.lt_of_le_of_ne hle heq))
    · exact .inr (.inl (Std.lt_of_le_of_ne hle (Ne.symm heq)))

/-! ## Names without NUL -/

private theorem throughNul_eq_self {cs : List Char} (h : '\x00' ∉ cs) : throughNul cs = cs := by
  induction cs with
  | nil => rfl
  | cons c rest ih =>
    rw [List.mem_cons, not_or] at h
    rw [throughNul, if_neg (Ne.symm h.1), ih h.2]

private theorem toLower_ne_nul {c : Char} (h : c ≠ '\x00') : c.toLower ≠ '\x00' := by
  unfold Char.toLower
  split
  · rename_i range
    intro eq
    have value := congrArg (fun d : Char => d.val.toNat) eq
    simp only [ge_iff_le, UInt32.le_iff_toNat_le, UInt32.toNat_add] at range value
    have := range.1
    have := range.2
    simp at *
    omega
  · exact h

private theorem nul_notMem_fold {name : String} (h : '\x00' ∉ name.toList) :
    '\x00' ∉ (Text.fold name).toList := by
  rw [Text.fold, String.toList_map, List.mem_map]
  rintro ⟨c, hc, eq⟩
  exact toLower_ne_nul (fun hn => h (hn ▸ hc)) eq

theorem start_ofName {name : String} (h : '\x00' ∉ name.toList) :
    (ofName name).start = Text.fold name := by
  rw [ofName, throughNul_eq_self (nul_notMem_fold h), String.ofList_toList]

private theorem nul_mem_throughNul {cs : List Char} (h : '\x00' ∈ cs) :
    '\x00' ∈ throughNul cs := by
  induction cs with
  | nil => cases h
  | cons c rest ih =>
    unfold throughNul
    split
    · rename_i hc
      simp [hc]
    · rename_i hc
      exact List.mem_cons_of_mem _ (ih ((List.mem_cons.1 h).resolve_left (Ne.symm hc)))

private theorem nul_mem_fold {name : String} (h : '\x00' ∈ name.toList) :
    '\x00' ∈ (Text.fold name).toList := by
  rw [Text.fold, String.toList_map]
  exact List.mem_map.2 ⟨'\x00', h, rfl⟩

/-- A name without NUL has the key of another exactly when they differ at most in case. -/
theorem ofName_eq_iff {a b : String} (ha : '\x00' ∉ a.toList) :
    ofName a = ofName b ↔ Text.sameName a b = true := by
  refine ⟨fun h => ?_, ofName_eq_of_sameName⟩
  have starts := congrArg start h
  rw [start_ofName ha] at starts
  by_cases hb : '\x00' ∈ b.toList
  · have hnul : '\x00' ∈ (ofName b).start.toList := by
      rw [ofName, String.toList_ofList]
      exact nul_mem_throughNul (nul_mem_fold hb)
    exact absurd (starts ▸ hnul) (nul_notMem_fold ha)
  · rw [Text.sameName_iff, starts, start_ofName hb]

/-- Names without NUL are ordered by their folded forms. -/
theorem precedes_ofName_iff {a b : String} (ha : '\x00' ∉ a.toList) (hb : '\x00' ∉ b.toList) :
    (ofName a).precedes (ofName b) = true ↔ Text.fold a ≤ Text.fold b := by
  have sizes : Text.fold a = Text.fold b → (ofName a).size ≤ (ofName b).size := by
    intro h
    rw [← Text.sameName_iff, ← ofName_eq_iff ha] at h
    exact Nat.le_of_eq (congrArg size h)
  simp only [precedes, start_ofName ha, start_ofName hb, Bool.or_eq_true, Bool.and_eq_true,
    decide_eq_true_eq, beq_iff_eq]
  constructor
  · rintro (h | h)
    · exact Std.le_of_lt h
    · exact h.1 ▸ Std.le_refl _
  · intro h
    by_cases eq : Text.fold a = Text.fold b
    · exact .inr ⟨eq, sizes eq⟩
    · exact .inl (Std.lt_of_le_of_ne h eq)

end NameKey

end KeywordEngine.Store
