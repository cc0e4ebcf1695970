import KeywordEngine.Proofs.StoreHistory

/-!
# Modules deleted from a store

What the readings of a store say after modules were deleted from it. Nothing is asked of the rows:
they may hold identities that no program wrote.

* `filter_mergeSort`: sorting keeps the order of equal items, so it does not matter whether items
  are left out before or after.
* `MetadataStore.deleteAll`: the store without the modules of some identities.
* `MetadataStore.list_deleteAll`: its listing is the old one with modules of these identities left
  out (`Thinned`).
-/

namespace KeywordEngine

open Store

/-! ## Sorting and leaving out -/

section Sorting

variable {α : Type} {le : α → α → Bool}

/-- Whether two items are equal in the order. -/
private def level (le : α → α → Bool) (a b : α) : Bool := le a b && le b a

variable (htrans : ∀ a b c, le a b = true → le b c = true → le a c = true)
  (htotal : ∀ a b, (le a b || le b a) = true)

include htrans htotal

/-- Sorting keeps equal items in their order. -/
private theorem filter_level_mergeSort (a : α) (l : List α) :
    (l.mergeSort le).filter (level le a) = l.filter (level le a) := by
  have hsorted : (l.filter (level le a)).Pairwise fun x y => le x y = true := by
    refine List.pairwise_of_forall_mem_list fun x hx y hy => ?_
    have hx := (List.mem_filter.1 hx).2
    have hy := (List.mem_filter.1 hy).2
    rw [level, Bool.and_eq_true] at hx hy
    exact htrans x a y hx.2 hy.1
  have hsublist := (List.sublist_mergeSort htrans htotal hsorted List.filter_sublist).filter
    (level le a)
  rw [List.filter_filter] at hsublist
  simp only [Bool.and_self] at hsublist
  exact (hsublist.eq_of_length ((List.mergeSort_perm l le).filter _).length_eq.symm).symm

omit htrans in
private theorem level_self (a : α) : level le a a = true := by
  have hself := htotal a a
  rw [Bool.or_self] at hself
  rw [level, hself, Bool.and_self]

omit htrans in
/-- A sorted list is known by its equal items. -/
private theorem eq_of_filter_level {l r : List α} (hl : l.Pairwise fun x y => le x y = true)
    (hr : r.Pairwise fun x y => le x y = true)
    (h : ∀ a, l.filter (level le a) = r.filter (level le a)) : l = r := by
  have hmem (a : α) : a ∈ l ↔ a ∈ r := by
    have ha := congrArg (a ∈ ·) (h a)
    simpa [level_self htotal] using ha
  induction l generalizing r with
  | nil =>
    symm
    rw [List.eq_nil_iff_forall_not_mem]
    exact fun a ha => List.not_mem_nil ((hmem a).2 ha)
  | cons a rest ih =>
    cases r with
    | nil => exact absurd ((hmem a).1 List.mem_cons_self) List.not_mem_nil
    | cons b tail =>
      rw [List.pairwise_cons] at hl hr
      have hself := Bool.and_eq_true_iff.1 (level_self htotal a)
      -- each head stands before the other, so both come first among the items equal to them
      have hlevel : level le a b = true := by
        rw [level, Bool.and_eq_true]
        constructor
        · obtain rfl | hb := List.mem_cons.1 ((hmem b).2 List.mem_cons_self)
          · exact hself.1
          · exact hl.1 b hb
        · obtain rfl | ha := List.mem_cons.1 ((hmem a).1 List.mem_cons_self)
          · exact hself.1
          · exact hr.1 a ha
      have hheads := h a
      rw [List.filter_cons_of_pos (level_self htotal a), List.filter_cons_of_pos hlevel] at hheads
      obtain rfl : a = b := (List.cons.inj hheads).1
      have htails (c : α) : rest.filter (level le c) = tail.filter (level le c) := by
        have hc := h c
        rw [List.filter_cons, List.filter_cons] at hc
        split at hc
        · exact (List.cons.inj hc).2
        · exact hc
      refine congrArg _ (ih hl.2 hr.2 htails fun c => ?_)
      have hc := congrArg (c ∈ ·) (htails c)
      simpa [level_self htotal] using hc

/-- Leaving out items of a sorted list leaves what sorting the others gives. -/
theorem filter_mergeSort (p : α → Bool) (l : List α) :
    (l.mergeSort le).filter p = (l.filter p).mergeSort le := by
  refine eq_of_filter_level htotal ((List.pairwise_mergeSort htrans htotal l).filter p)
    (List.pairwise_mergeSort htrans htotal _) fun a => ?_
  rw [filter_level_mergeSort htrans htotal, List.filter_filter, List.filter_filter]
  simp only [Bool.and_comm]
  rw [← List.filter_filter, filter_level_mergeSort htrans htotal, List.filter_filter]

end Sorting

/-! ## Deleting modules -/

/-- Modules of which some with an identity in `ids` are left out. -/
inductive Thinned (ids : List ModuleId) : List ModuleRef → List ModuleRef → Prop
  | nil : Thinned ids [] []
  | keep (m : ModuleRef) {l l' : List ModuleRef} (rest : Thinned ids l l') :
      Thinned ids (m :: l) (m :: l')
  | leave {m : ModuleRef} {l l' : List ModuleRef} (listed : m.id ∈ ids) (rest : Thinned ids l l') :
      Thinned ids (m :: l) l'

namespace MetadataStore

variable {s : MetadataStore} {ids : List ModuleId}

/-- The store without the modules of some identities. -/
def deleteAll (s : MetadataStore) (ids : List ModuleId) : MetadataStore := ids.foldl delete s

/-- Whether a row has none of some identities. -/
def outside (ids : List ModuleId) (m : StoredModule) : Bool :=
  !(ids.map ModuleId.text).contains m.idText

theorem modules_deleteAll (s : MetadataStore) (ids : List ModuleId) :
    (s.deleteAll ids).modules = s.modules.filter (outside ids) := by
  unfold deleteAll
  induction ids generalizing s with
  | nil => exact (List.filter_eq_self.2 (by simp [outside])).symm
  | cons id rest ih =>
    rw [List.foldl_cons, ih, delete, List.filter_filter]
    refine List.filter_congr fun m _ => ?_
    rw [Bool.eq_iff_iff]
    simp [outside, and_comm]

theorem load_deleteAll_of_mem {id : ModuleId} (h : id ∈ ids) :
    (s.deleteAll ids).load id = .error (.notFound id.text) := by
  have hnone : (s.modules.filter (outside ids)).find? (·.idText == id.text) = none := by
    rw [List.find?_eq_none]
    intro m hm hid
    have houtside := (List.mem_filter.1 hm).2
    rw [beq_iff_eq] at hid
    simp [outside, hid, ModuleId.text_inj, h] at houtside
  rw [load, modules_deleteAll, hnone]

theorem load_deleteAll_of_notMem {id : ModuleId} (h : id ∉ ids) :
    (s.deleteAll ids).load id = s.load id := by
  have hsame : (s.modules.filter (outside ids)).find? (·.idText == id.text) =
      s.modules.find? (·.idText == id.text) := by
    rw [List.find?_filter]
    refine List.find?_congr fun m _ => ?_
    rw [Bool.eq_iff_iff, decide_eq_true_iff, and_iff_right_iff_imp, beq_iff_eq]
    intro hid
    simp [outside, hid, ModuleId.text_inj, h]
  rw [load, modules_deleteAll, hsame]
  rfl

theorem rows_deleteAll (s : MetadataStore) (ids : List ModuleId) :
    (s.deleteAll ids).rows = s.rows.filter (outside ids) := by
  have htrans (a b c : StoredModule) : a.nameKey.precedes b.nameKey = true →
      b.nameKey.precedes c.nameKey = true → a.nameKey.precedes c.nameKey = true :=
    NameKey.precedes_trans _ _ _
  have htotal (a b : StoredModule) :
      (a.nameKey.precedes b.nameKey || b.nameKey.precedes a.nameKey) = true :=
    NameKey.precedes_total _ _
  rw [rows, modules_deleteAll, rows, filter_mergeSort htrans htotal]

/-- A row of a deleted module stands for its identity. -/
theorem id_mem_of_not_outside {row : StoredModule} {m : ModuleRef} (h : outside ids row = false)
    (hm : decodeRef row = .ok m) : m.id ∈ ids := by
  obtain ⟨id, hid, htext⟩ : ∃ id ∈ ids, id.text = row.idText := by simpa [outside] using h
  rw [decodeRef, ← htext, ModuleId.ofText?_text] at hm
  obtain rfl := Except.ok.inj hm
  exact hid

theorem thinned_of_rows (ids : List ModuleId) {rows : List StoredModule} {l : List ModuleRef}
    (h : List.Forall₂ (fun row m => decodeRef row = .ok m) rows l) :
    ∃ l', List.Forall₂ (fun row m => decodeRef row = .ok m) (rows.filter (outside ids)) l' ∧
      Thinned ids l l' := by
  induction h with
  | nil => exact ⟨[], .nil, .nil⟩
  | @cons row m _ _ hm _ ih =>
    obtain ⟨l', hl', hthinned⟩ := ih
    by_cases houtside : outside ids row = true
    · rw [List.filter_cons_of_pos houtside]
      exact ⟨m :: l', .cons hm hl', .keep m hthinned⟩
    · rw [List.filter_cons_of_neg houtside]
      exact ⟨l', hl', .leave (id_mem_of_not_outside (by simpa using houtside) hm) hthinned⟩

/-- The listing after modules were deleted is the one before with modules left out. -/
theorem list_deleteAll {l : List ModuleRef} (h : s.list = .ok l) :
    ∃ l', (s.deleteAll ids).list = .ok l' ∧ Thinned ids l l' := by
  rw [list, Success.mapM_eq_ok] at h
  obtain ⟨l', hl', hthinned⟩ := thinned_of_rows ids h
  refine ⟨l', ?_, hthinned⟩
  rw [list, rows_deleteAll, Success.mapM_eq_ok]
  exact hl'

/-- Every stored identity is written in its canonical form, as `write` does. -/
def Canonical (s : MetadataStore) : Prop := ∀ row ∈ s.modules, ∃ id, row.idText = ModuleId.text id

/-- A deleted module is no longer listed. -/
theorem id_notMem_of_list_deleteAll (hcanonical : s.Canonical) {l : List ModuleRef}
    (h : (s.deleteAll ids).list = .ok l) : ∀ m ∈ l, m.id ∉ ids := by
  intro m hm hid
  rw [list, rows_deleteAll, Success.mapM_eq_ok] at h
  obtain ⟨row, hrow, hdecoded⟩ := Success.exists_of_forall₂ h.flip hm
  obtain ⟨hstored, houtside⟩ := List.mem_filter.1 hrow
  obtain ⟨id, htext⟩ := hcanonical row (List.mem_mergeSort.1 hstored)
  rw [decodeRef, htext, ModuleId.ofText?_text] at hdecoded
  obtain rfl := Except.ok.inj hdecoded
  simp [outside, htext, ModuleId.text_inj, hid] at houtside

end MetadataStore

end KeywordEngine
