import KeywordEngine.SortedMap
import Mathlib.Data.List.Nodup

/-!
# Lookups in maps made from lists

What a lookup finds after the entries of a list were stored one after the other.

* `isSome_get?_ofList`: something is found under exactly the keys of the list.
* `mem_of_get?_ofList`, `get?_ofList_iff`: what is found is an entry of the list, and if the keys are
  different, every entry is found.
* `get?_insertMany`, `get?_ofList`: of the entries with one key, the last is found.
* `mem_values`, `mem_keys`: the listed values and keys are the ones that lookups find.
* `map_values_eq_of_get?`: maps that answer alike list alike, up to a change of their values.
-/

namespace KeywordEngine

namespace SortedMap

open Std

variable {κ α : Type} [Ord κ] [TransOrd κ] [LawfulEqOrd κ] [DecidableEq κ]

theorem mem_of_get?_insertMany {m : SortedMap κ α} {l : List (κ × α)} {k : κ} {a : α}
    (h : (m.insertMany l).get? k = some a) : (k, a) ∈ l ∨ m.get? k = some a := by
  induction l generalizing m with
  | nil => exact .inr h
  | cons e rest ih =>
    rcases ih (m := m.insert e.1 e.2) h with hrest | hfirst
    · exact .inl (List.mem_cons_of_mem _ hrest)
    · rw [get?_insert] at hfirst
      split at hfirst
      · rename_i hk
        obtain rfl : e.2 = a := by simpa using hfirst
        exact .inl (by simp [← hk])
      · exact .inr hfirst

theorem isSome_get?_insertMany {m : SortedMap κ α} {l : List (κ × α)} {k : κ} :
    ((m.insertMany l).get? k).isSome = true ↔
      (∃ a, (k, a) ∈ l) ∨ (m.get? k).isSome = true := by
  induction l generalizing m with
  | nil => simp [insertMany]
  | cons e rest ih =>
    have hstep : (m.insertMany (e :: rest)).get? k = ((m.insert e.1 e.2).insertMany rest).get? k :=
      rfl
    rw [hstep, ih, get?_insert]
    by_cases hk : e.1 = k
    · subst hk
      simp only [if_true, Option.isSome_some, or_true, true_iff]
      exact .inl ⟨e.2, by simp⟩
    · have hne : ∀ a, (k, a) ≠ e := by
        rintro a rfl
        exact hk rfl
      simp [hk, hne]

theorem mem_of_get?_ofList {l : List (κ × α)} {k : κ} {a : α}
    (h : (ofList l).get? k = some a) : (k, a) ∈ l := by
  rcases mem_of_get?_insertMany (m := empty) h with hmem | hnone
  · exact hmem
  · simp at hnone

/-- Something is found under exactly the keys of the list. -/
theorem isSome_get?_ofList {l : List (κ × α)} {k : κ} :
    ((ofList l).get? k).isSome = true ↔ ∃ a, (k, a) ∈ l := by
  show ((insertMany empty l).get? k).isSome = true ↔ _
  rw [isSome_get?_insertMany]
  simp

/-- Entries with different keys are all found. -/
theorem get?_ofList_iff {l : List (κ × α)} (hl : (l.map (·.1)).Nodup) {k : κ} {a : α} :
    (ofList l).get? k = some a ↔ (k, a) ∈ l := by
  refine ⟨mem_of_get?_ofList, fun hmem => ?_⟩
  obtain ⟨b, hb⟩ := Option.isSome_iff_exists.1 (isSome_get?_ofList.2 ⟨a, hmem⟩)
  have heq := List.inj_on_of_nodup_map hl hmem (mem_of_get?_ofList hb) rfl
  rw [hb, ← (Prod.mk.inj heq).2]

/-- Of the entries with one key, the last is found, and what was found before if there are none. -/
theorem get?_insertMany (m : SortedMap κ α) (l : List (κ × α)) (k : κ) :
    (m.insertMany l).get? k =
      (((l.filter (·.1 = k)).getLast?).map (·.2) <|> m.get? k) := by
  induction l generalizing m with
  | nil => rfl
  | cons e rest ih =>
    refine (ih (m.insert e.1 e.2)).trans ?_
    rw [get?_insert, List.filter_cons]
    by_cases hk : e.1 = k
    · simp only [hk, if_true, decide_true, List.getLast?_cons, Option.map_some]
      cases (rest.filter (·.1 = k)).getLast? <;> rfl
    · simp [hk]

/-- Of the entries with one key, the last is found. -/
theorem get?_ofList (l : List (κ × α)) (k : κ) :
    (ofList l).get? k = ((l.filter (·.1 = k)).getLast?).map (·.2) := by
  refine (get?_insertMany empty l k).trans ?_
  simp

/-- An entry of a list with different keys is found after the list was stored. -/
theorem get?_insertMany_of_mem (m : SortedMap κ α) {l : List (κ × α)} (hl : (l.map (·.1)).Nodup)
    {k : κ} {a : α} (h : (k, a) ∈ l) : (m.insertMany l).get? k = some a := by
  have hmem : (k, a) ∈ l.filter (·.1 = k) := List.mem_filter.2 ⟨h, by simp⟩
  rw [get?_insertMany]
  cases hlast : (l.filter (·.1 = k)).getLast? with
  | none =>
    rw [List.getLast?_eq_none_iff] at hlast
    exact absurd hmem (by simp [hlast])
  | some e =>
    obtain ⟨he, hk⟩ := List.mem_filter.1 (List.mem_of_getLast? hlast)
    obtain rfl := List.inj_on_of_nodup_map hl he h (of_decide_eq_true hk)
    rfl

/-- Storing entries of other keys does not change a lookup. -/
theorem get?_insertMany_of_notMem (m : SortedMap κ α) {l : List (κ × α)} {k : κ}
    (h : k ∉ l.map (·.1)) : (m.insertMany l).get? k = m.get? k := by
  have hnone : l.filter (·.1 = k) = [] := by
    rw [List.filter_eq_nil_iff]
    intro e he hk
    exact h (List.mem_map.2 ⟨e, he, of_decide_eq_true hk⟩)
  rw [get?_insertMany, hnone]
  rfl

/-- Storing entries with different new keys adds exactly these entries. -/
theorem get?_insertMany_of_new {m : SortedMap κ α} {l : List (κ × α)} (hl : (l.map (·.1)).Nodup)
    (hnew : ∀ e ∈ l, m.get? e.1 = none) {k : κ} {a : α} :
    (m.insertMany l).get? k = some a ↔ (k, a) ∈ l ∨ m.get? k = some a := by
  refine ⟨mem_of_get?_insertMany, fun h => ?_⟩
  have hsome : ((m.insertMany l).get? k).isSome = true := by
    rw [isSome_get?_insertMany]
    exact h.imp (fun hmem => ⟨a, hmem⟩) fun hold => by simp [hold]
  obtain ⟨b, hb⟩ := Option.isSome_iff_exists.1 hsome
  rcases h with hmem | hold <;> rcases mem_of_get?_insertMany hb with hmem' | hold'
  · have heq := List.inj_on_of_nodup_map hl hmem hmem' rfl
    rw [hb, ← (Prod.mk.inj heq).2]
  · exact absurd (hold'.symm.trans (hnew _ hmem)) nofun
  · exact absurd (hold.symm.trans (hnew _ hmem')) nofun
  · rw [hb, ← Option.some.inj (hold.symm.trans hold')]

/-! ## Keys and values -/

omit [TransOrd κ] [DecidableEq κ] in
theorem mem_values {m : SortedMap κ α} {a : α} : a ∈ m.values ↔ ∃ k, m.get? k = some a := by
  simp only [← mem_toList_iff, values, List.mem_map, Prod.exists, exists_eq_right]

omit [TransOrd κ] [DecidableEq κ] in
theorem mem_keys {m : SortedMap κ α} {k : κ} : k ∈ m.keys ↔ ∃ a, m.get? k = some a := by
  simp only [← mem_toList_iff, keys, List.mem_map, Prod.exists, exists_and_right, exists_eq_right]

omit [TransOrd κ] [LawfulEqOrd κ] [DecidableEq κ] in
theorem increasing_keys (m : SortedMap κ α) : m.keys.Pairwise fun a b => compare a b = .lt :=
  List.pairwise_map.2 m.increasing

omit [TransOrd κ] [DecidableEq κ] in
theorem nodup_keys (m : SortedMap κ α) : m.keys.Nodup :=
  m.increasing_keys.imp fun h heq => by simp [heq] at h

/-! ## Changed values -/

/-- The map with every value changed by `f`. -/
def mapValues {β : Type} (f : α → β) (m : SortedMap κ α) : SortedMap κ β :=
  ⟨m.toList.map fun e => (e.1, f e.2), List.pairwise_map.2 m.increasing⟩

omit [TransOrd κ] [LawfulEqOrd κ] [DecidableEq κ] in
theorem get?_mapValues {β : Type} (f : α → β) (m : SortedMap κ α) (k : κ) :
    (m.mapValues f).get? k = (m.get? k).map f := by
  unfold get? mapValues
  rw [List.find?_map, Option.map_map, Option.map_map]
  rfl

omit [DecidableEq κ] in
/-- Maps that answer alike, up to a change of their values, list these alike. -/
theorem map_values_eq_of_get? {β γ : Type} {m : SortedMap κ α} {n : SortedMap κ β} {f : α → γ}
    {g : β → γ} (h : ∀ k, (m.get? k).map f = (n.get? k).map g) :
    m.values.map f = n.values.map g := by
  have heq : m.mapValues f = n.mapValues g := by
    apply ext_get?
    intro k
    rw [get?_mapValues, get?_mapValues, h]
  have hlisted {δ : Type} (m : SortedMap κ δ) (f : δ → γ) :
      m.values.map f = (m.mapValues f).values := by
    simp [values, mapValues]
  rw [hlisted, hlisted, heq]

end SortedMap

/-- A set is known by the texts in it. -/
theorem SortedSet.ext_keys {s t : SortedSet} (h : ∀ k, k ∈ s.keys ↔ k ∈ t.keys) : s = t := by
  refine SortedMap.ext_get? fun k => Option.ext fun u => ?_
  have hk := h k
  rw [SortedMap.mem_keys, SortedMap.mem_keys] at hk
  exact ⟨fun hs => (hk.1 ⟨u, hs⟩).elim fun _ ht => ht, fun ht => (hk.2 ⟨u, ht⟩).elim fun _ hs => hs⟩

end KeywordEngine
