/-!
# Maps in key order

A `SortedMap κ α` holds at most one value per key and lists its entries with the keys in
increasing order. Two maps with the same entries are equal.

* `get?_insert`, `get?_erase`: what a lookup finds after a change.
* `mem_toList_iff`: the listed entries are the ones that lookups find.
* `ext_get?`: maps that answer every lookup alike are equal.
-/

namespace KeywordEngine

open Std

/-- Entries with pairwise different keys, in increasing order of the keys. -/
structure SortedMap (κ α : Type) [Ord κ] where
  /-- The entries in key order. -/
  toList : List (κ × α)
  increasing : toList.Pairwise fun a b => compare a.1 b.1 = .lt
  deriving Repr

namespace SortedMap

variable {κ α β : Type} [Ord κ]

/-- The map without entries. -/
def empty : SortedMap κ α := ⟨[], .nil⟩

instance : EmptyCollection (SortedMap κ α) := ⟨empty⟩

instance : Inhabited (SortedMap κ α) := ⟨empty⟩

/-- The value stored under `k`. -/
def get? (m : SortedMap κ α) (k : κ) : Option α :=
  (m.toList.find? fun e => compare e.1 k == .eq).map (·.2)

/-- Whether a value is stored under `k`. -/
def contains (m : SortedMap κ α) (k : κ) : Bool := (m.get? k).isSome

/-- The number of entries. -/
def size (m : SortedMap κ α) : Nat := m.toList.length

/-- Whether there are no entries. -/
def isEmpty (m : SortedMap κ α) : Bool := m.toList.isEmpty

/-- The keys in increasing order. -/
def keys (m : SortedMap κ α) : List κ := m.toList.map (·.1)

/-- The values in the order of their keys. -/
def values (m : SortedMap κ α) : List α := m.toList.map (·.2)

/-- Puts `(k, a)` in its place in a list in key order, over an entry of the same key. -/
def insertEntry (k : κ) (a : α) : List (κ × α) → List (κ × α)
  | [] => [(k, a)]
  | e :: rest =>
    match compare k e.1 with
    | .lt => (k, a) :: e :: rest
    | .eq => (k, a) :: rest
    | .gt => e :: insertEntry k a rest

theorem mem_insertEntry {k : κ} {a : α} {e : κ × α} {l : List (κ × α)}
    (h : e ∈ insertEntry k a l) : e = (k, a) ∨ e ∈ l := by
  induction l with
  | nil => simpa [insertEntry] using h
  | cons d rest ih =>
    simp only [insertEntry] at h
    split at h <;> grind

theorem increasing_insertEntry [TransOrd κ] [LawfulEqOrd κ] {k : κ} {a : α} {l : List (κ × α)}
    (h : l.Pairwise fun a b => compare a.1 b.1 = .lt) :
    (insertEntry k a l).Pairwise fun a b => compare a.1 b.1 = .lt := by
  induction l with
  | nil => simp [insertEntry]
  | cons d rest ih =>
    rw [List.pairwise_cons] at h
    simp only [insertEntry]
    split
    · rename_i hk
      refine List.pairwise_cons.2 ⟨fun e he => ?_, List.pairwise_cons.2 h⟩
      rcases List.mem_cons.1 he with rfl | he
      · exact hk
      · exact TransCmp.lt_trans hk (h.1 e he)
    · rename_i hk
      rw [Std.compare_eq_iff_eq] at hk
      exact List.pairwise_cons.2 ⟨fun e he => hk ▸ h.1 e he, h.2⟩
    · rename_i hk
      refine List.pairwise_cons.2 ⟨fun e he => ?_, ih h.2⟩
      rcases mem_insertEntry he with rfl | he
      · exact OrientedCmp.gt_iff_lt.1 hk
      · exact h.1 e he

/-- Stores `a` under `k`, in place of what was stored there. -/
def insert [TransOrd κ] [LawfulEqOrd κ] (m : SortedMap κ α) (k : κ) (a : α) : SortedMap κ α :=
  ⟨insertEntry k a m.toList, increasing_insertEntry m.increasing⟩

/-- Removes what is stored under `k`. -/
def erase (m : SortedMap κ α) (k : κ) : SortedMap κ α :=
  ⟨m.toList.filter fun e => compare e.1 k != .eq, m.increasing.filter _⟩

/-- The entries of a list, a later one over an earlier one of the same key. -/
def ofList [TransOrd κ] [LawfulEqOrd κ] (l : List (κ × α)) : SortedMap κ α :=
  l.foldl (fun m e => m.insert e.1 e.2) empty

/-- `m` with the entries of `l` stored one after the other. -/
def insertMany [TransOrd κ] [LawfulEqOrd κ] (m : SortedMap κ α) (l : List (κ × α)) :
    SortedMap κ α :=
  l.foldl (fun m e => m.insert e.1 e.2) m

/-! ## Lookups -/

@[ext] theorem ext {m n : SortedMap κ α} (h : m.toList = n.toList) : m = n := by
  cases m
  cases n
  congr

@[simp] theorem get?_empty (k : κ) : (empty : SortedMap κ α).get? k = none := rfl

section Lookup

variable [LawfulEqOrd κ]

private theorem find?_insertEntry [DecidableEq κ] (k j : κ) (a : α) (l : List (κ × α)) :
    (insertEntry k a l).find? (fun e => compare e.1 j == .eq) =
      if k = j then some (k, a) else l.find? fun e => compare e.1 j == .eq := by
  induction l with
  | nil => by_cases h : k = j <;> simp [insertEntry, h]
  | cons d rest ih =>
    by_cases hkj : k = j
    · subst hkj
      simp only [insertEntry, if_pos]
      split
      · simp
      · simp
      · rename_i hk
        have hd : ¬ d.1 = k := by
          rintro rfl
          simp at hk
        simpa [List.find?_cons, hd, show (compare d.1 k == .eq) = false by simp [hd]] using ih
    · simp only [insertEntry, if_neg hkj] at ih ⊢
      split
      · simp [hkj]
      · rename_i hk
        rw [Std.compare_eq_iff_eq] at hk
        subst hk
        simp [hkj]
      · simp only [List.find?_cons, ih]

/-- A lookup finds the value stored last under its key. -/
theorem get?_insert [TransOrd κ] [DecidableEq κ] (m : SortedMap κ α) (k j : κ) (a : α) :
    (m.insert k a).get? j = if k = j then some a else m.get? j := by
  unfold get? insert
  rw [find?_insertEntry]
  split <;> simp

/-- A lookup finds nothing under an erased key and what it found before under any other. -/
theorem get?_erase [DecidableEq κ] (m : SortedMap κ α) (k j : κ) :
    (m.erase k).get? j = if k = j then none else m.get? j := by
  unfold get? erase
  rw [List.find?_filter]
  by_cases h : k = j
  · subst h
    simp
  · rw [if_neg h]
    congr 2
    funext e
    by_cases he : e.1 = j
    · simp [he, Ne.symm h]
    · simp [he]

private theorem find?_of_mem {l : List (κ × α)} {e : κ × α}
    (h : l.Pairwise fun a b => compare a.1 b.1 = .lt) (he : e ∈ l) :
    l.find? (fun d => compare d.1 e.1 == .eq) = some e := by
  induction l with
  | nil => cases he
  | cons d rest ih =>
    rw [List.pairwise_cons] at h
    rcases List.mem_cons.1 he with rfl | he
    · simp
    · have hd : compare d.1 e.1 ≠ .eq := by simp [h.1 e he]
      simp [hd, ih h.2 he]

/-- The listed entries are exactly those that lookups find. -/
theorem mem_toList_iff {m : SortedMap κ α} {k : κ} {a : α} :
    (k, a) ∈ m.toList ↔ m.get? k = some a := by
  constructor
  · intro h
    simp [get?, find?_of_mem m.increasing h]
  · intro h
    obtain ⟨e, he, rfl⟩ := Option.map_eq_some_iff.1 h
    have hk := List.find?_some he
    rw [beq_iff_eq, Std.compare_eq_iff_eq] at hk
    subst hk
    exact List.mem_of_find?_eq_some he

private theorem eq_of_mem_iff [TransOrd κ] {l r : List (κ × α)}
    (hl : l.Pairwise fun a b => compare a.1 b.1 = .lt)
    (hr : r.Pairwise fun a b => compare a.1 b.1 = .lt) (h : ∀ e, e ∈ l ↔ e ∈ r) : l = r := by
  induction l generalizing r with
  | nil =>
    cases r with
    | nil => rfl
    | cons e _ => exact absurd ((h e).2 (by simp)) (by simp)
  | cons d rest ih =>
    cases r with
    | nil => exact absurd ((h d).1 (by simp)) (by simp)
    | cons e tail =>
      rw [List.pairwise_cons] at hl hr
      have asymm : ∀ {a b : κ}, compare a b = .lt → compare b a = .lt → False := by
        intro a b hab hba
        simpa using TransCmp.lt_trans hab hba
      have hde : d = e := by
        rcases List.mem_cons.1 ((h d).1 (by simp)) with hd | hd
        · exact hd
        · rcases List.mem_cons.1 ((h e).2 (by simp)) with he | he
          · exact he.symm
          · exact (asymm (hl.1 e he) (hr.1 d hd)).elim
      subst hde
      refine congrArg _ (ih hl.2 hr.2 fun x => ⟨fun hx => ?_, fun hx => ?_⟩)
      · rcases List.mem_cons.1 ((h x).1 (by simp [hx])) with rfl | hx'
        · exact absurd (hl.1 x hx) (by simp)
        · exact hx'
      · rcases List.mem_cons.1 ((h x).2 (by simp [hx])) with rfl | hx'
        · exact absurd (hr.1 x hx) (by simp)
        · exact hx'

/-- Maps that answer every lookup alike are equal. -/
theorem ext_get? [TransOrd κ] {m n : SortedMap κ α} (h : ∀ k, m.get? k = n.get? k) : m = n := by
  apply ext
  refine eq_of_mem_iff m.increasing n.increasing fun ⟨k, a⟩ => ?_
  rw [mem_toList_iff, mem_toList_iff, h]

end Lookup

end SortedMap

/-! ## Sets in order -/

/-- A set of texts, listed in order of their code points. -/
abbrev SortedSet := SortedMap String Unit

/-- The set of the texts in a list. -/
def SortedSet.ofTexts (l : List String) : SortedSet := SortedMap.ofList (l.map (·, ()))

end KeywordEngine
