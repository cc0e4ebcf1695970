import KeywordEngine.Proofs.Success
import KeywordEngine.Store
import Mathlib.Data.List.Find
import Mathlib.Data.List.Induction
import Mathlib.Data.List.Pairwise

/-!
# The store over a history of changes

A store is a map with two unique keys: after any writes and deletions no two stored modules share an
identity or, apart from case, a name. A write displaces up to two modules, one by each key.

* `MetadataStore.Holds`: the rows are those of given modules, no two of which share a key, with one
  lemma for a change (`Holds.call`) and one for each reading (`Holds.load_eq`, `Holds.list_eq`,
  `Holds.find?_eq`).
* `Stored`: the modules that were written and that nothing removed since.
* `MetadataStore.answers_run`: the readings after any changes.
-/

namespace KeywordEngine

open Store

/-- Where at most one item passes, a search finds it. -/
theorem find?_eq_some_iff_of_unique {α : Type} {p : α → Bool} {l : List α}
    (h : ∀ a ∈ l, ∀ b ∈ l, p a = true → p b = true → a = b) {a : α} :
    l.find? p = some a ↔ a ∈ l ∧ p a = true := by
  constructor
  · exact fun hfound => ⟨List.mem_of_find?_eq_some hfound, List.find?_some hfound⟩
  · rintro ⟨ha, hpasses⟩
    cases hfound : l.find? p with
    | none => exact absurd hpasses (List.find?_eq_none.1 hfound a ha)
    | some b => rw [h b (List.mem_of_find?_eq_some hfound) a ha (List.find?_some hfound) hpasses]

/-- Modules that share no key. -/
def ModuleMetadata.Apart (a b : ModuleMetadata) : Prop :=
  a.module.id ≠ b.module.id ∧ Text.sameName a.module.name b.module.name = false

theorem ModuleMetadata.Apart.symm {a b : ModuleMetadata} (h : a.Apart b) : b.Apart a :=
  ⟨h.1.symm, by rw [Text.sameName_comm, h.2]⟩

/-! ## Changes -/

/-- A change of a store. -/
inductive StoreCall where
  | write (m : ModuleMetadata)
  | delete (id : ModuleId)

namespace StoreCall

/-- Whether a change removes a stored module. -/
def removes (old : ModuleMetadata) : StoreCall → Bool
  | write m => m.module.id = old.module.id || Text.sameName m.module.name old.module.name
  | delete id => id = old.module.id

theorem removes_write_eq_false {old m : ModuleMetadata} :
    (write m).removes old = false ↔ m.Apart old := by
  simp [removes, ModuleMetadata.Apart]

/-- The modules that a change writes. -/
def written : StoreCall → List ModuleMetadata
  | write m => [m]
  | delete _ => []

/-- The stored modules after a change. -/
def apply (ms : List ModuleMetadata) (c : StoreCall) : List ModuleMetadata :=
  ms.filter (fun m => !c.removes m) ++ c.written

/-- A change that writes no name with a NUL character. -/
def Plain (c : StoreCall) : Prop := ∀ m ∈ c.written, '\x00' ∉ m.module.name.toList

end StoreCall

namespace MetadataStore

/-- The store after a change. -/
def call (s : MetadataStore) : StoreCall → MetadataStore
  | .write m => s.write m
  | .delete id => s.delete id

/-- The store after changes. -/
def run (s : MetadataStore) (calls : List StoreCall) : MetadataStore := calls.foldl call s

/-! ## Stores of written modules -/

/-- The rows of the store are those of the modules `ms`, no two of which share a key. -/
structure Holds (s : MetadataStore) (ms : List ModuleMetadata) : Prop where
  rows : s.modules = ms.map encodeModule
  plain : ∀ m ∈ ms, '\x00' ∉ m.module.name.toList
  apart : ms.Pairwise ModuleMetadata.Apart

namespace Holds

variable {s : MetadataStore} {ms : List ModuleMetadata}

theorem empty : MetadataStore.empty.Holds [] := ⟨rfl, by simp, .nil⟩

/-- A row stands in the way of a module exactly when writing the module removes what is stored
there. -/
theorem conflicts_encodeModule {old m : ModuleMetadata} (h : '\x00' ∉ m.module.name.toList) :
    conflicts m.module.id.text m.module.name (encodeModule old) =
      (StoreCall.write m).removes old := by
  have hkey : (encodeModule old).nameKey = .ofName m.module.name ↔
      Text.sameName m.module.name old.module.name = true := by
    rw [eq_comm]
    exact NameKey.ofName_eq_iff h
  rw [Bool.eq_iff_iff]
  simp only [conflicts, StoreCall.removes, Bool.or_eq_true, beq_iff_eq, hkey, decide_eq_true_eq]
  rw [eq_comm (a := m.module.id), ← ModuleId.text_inj]
  rfl

theorem write (h : s.Holds ms) {m : ModuleMetadata} (hm : '\x00' ∉ m.module.name.toList) :
    (s.write m).Holds (StoreCall.apply ms (.write m)) where
  rows := by
    simp only [MetadataStore.write, h.rows, StoreCall.apply, StoreCall.written, List.map_append,
      List.map_singleton, List.filter_map]
    congr 2
    exact List.filter_congr fun old _ => by
      rw [Function.comp, conflicts_encodeModule hm]
  plain m' hm' := by
    obtain hm' | hm' := List.mem_append.1 hm'
    · exact h.plain m' (List.mem_filter.1 hm').1
    · obtain rfl := List.mem_singleton.1 hm'
      exact hm
  apart := by
    refine List.pairwise_append.2 ⟨h.apart.filter _, by simp [StoreCall.written], ?_⟩
    intro old hold m' hm'
    obtain rfl := List.mem_singleton.1 hm'
    have hkept := (List.mem_filter.1 hold).2
    exact (StoreCall.removes_write_eq_false.1 (by simpa using hkept)).symm

theorem delete (h : s.Holds ms) (id : ModuleId) :
    (s.delete id).Holds (StoreCall.apply ms (.delete id)) where
  rows := by
    simp only [MetadataStore.delete, h.rows, StoreCall.apply, StoreCall.written, List.append_nil,
      List.filter_map]
    congr 1
    refine List.filter_congr fun old _ => ?_
    rw [Bool.eq_iff_iff, Function.comp, bne_iff_ne, encodeModule, Ne, ModuleId.text_inj]
    simp [StoreCall.removes, eq_comm (a := id)]
  plain m hm := by
    simp only [StoreCall.apply, StoreCall.written, List.append_nil] at hm
    exact h.plain m (List.mem_filter.1 hm).1
  apart := by
    simp only [StoreCall.apply, StoreCall.written, List.append_nil]
    exact h.apart.filter _

/-- A change of a store changes the modules that it holds. -/
theorem call (h : s.Holds ms) {c : StoreCall} (hc : c.Plain) :
    (s.call c).Holds (StoreCall.apply ms c) := by
  cases c with
  | write m => exact h.write (hc m (by simp [StoreCall.written]))
  | delete id => exact h.delete id

theorem run (h : s.Holds ms) {calls : List StoreCall} (hplain : ∀ c ∈ calls, c.Plain) :
    (s.run calls).Holds (calls.foldl StoreCall.apply ms) := by
  induction calls generalizing s ms with
  | nil => exact h
  | cons c rest ih =>
    rw [List.forall_mem_cons] at hplain
    exact ih (h.call hplain.1) hplain.2

/-- Modules that share a key are one. -/
theorem eq_of_same_key (h : s.Holds ms) {m m' : ModuleMetadata} (hm : m ∈ ms) (hm' : m' ∈ ms)
    (hkey : m.module.id = m'.module.id ∨ Text.sameName m.module.name m'.module.name = true) :
    m = m' := by
  by_contra hne
  have : Std.Symm ModuleMetadata.Apart := ⟨fun _ _ => ModuleMetadata.Apart.symm⟩
  obtain ⟨hid, hname⟩ := h.apart.forall hm hm' hne
  rw [hname] at hkey
  simp [hid] at hkey

theorem find?_id (h : s.Holds ms) {id : ModuleId} {m : ModuleMetadata} :
    ms.find? (·.module.id = id) = some m ↔ m ∈ ms ∧ m.module.id = id := by
  rw [find?_eq_some_iff_of_unique, decide_eq_true_iff]
  intro a ha b hb hida hidb
  rw [decide_eq_true_iff] at hida hidb
  exact h.eq_of_same_key ha hb (.inl (hida.trans hidb.symm))

theorem find?_name (h : s.Holds ms) {name : String} {m : ModuleMetadata} :
    ms.find? (Text.sameName ·.module.name name) = some m ↔
      m ∈ ms ∧ Text.sameName m.module.name name = true := by
  refine find?_eq_some_iff_of_unique fun a ha b hb hnamea hnameb => ?_
  rw [Text.sameName_iff] at hnamea hnameb
  exact h.eq_of_same_key ha hb (.inr (Text.sameName_iff.2 (hnamea.trans hnameb.symm)))

/-! ### Readings -/

/-- The stored module of an identity is read back as it was written. -/
theorem load_eq (h : s.Holds ms) (id : ModuleId) :
    s.load id = match ms.find? (·.module.id = id) with
      | some m => .ok m
      | none => .error (.notFound id.text) := by
  have hfind : s.modules.find? (·.idText == id.text) =
      (ms.find? (·.module.id = id)).map encodeModule := by
    rw [h.rows, List.find?_map]
    congr 2
    funext m
    rw [Bool.eq_iff_iff]
    simp [encodeModule, ModuleId.text_inj]
  rw [load, hfind]
  cases ms.find? (·.module.id = id) with
  | none => rfl
  | some m => exact decodeModule_encodeModule m

/-- The stored module of a name is found in any case. -/
theorem find?_eq (h : s.Holds ms) (name : String) :
    s.find? name = .ok ((ms.find? (Text.sameName ·.module.name name)).map (·.module)) := by
  have hfind : s.modules.find? (·.nameKey == .ofName name) =
      (ms.find? (Text.sameName ·.module.name name)).map encodeModule := by
    rw [h.rows, List.find?_map]
    congr 1
    refine List.find?_congr fun m hm => ?_
    rw [Bool.eq_iff_iff, Function.comp, beq_iff_eq]
    exact NameKey.ofName_eq_iff (h.plain m hm)
  rw [MetadataStore.find?, hfind]
  cases ms.find? (Text.sameName ·.module.name name) with
  | none => rfl
  | some m =>
    rw [Option.map_some, Option.mapM_some, decodeRef_encodeModule]
    rfl

/-- The stored modules are listed in the order of their names. -/
theorem list_eq (h : s.Holds ms) : ∃ sorted : List ModuleMetadata, sorted.Perm ms ∧
    sorted.Pairwise (fun a b => Text.fold a.module.name < Text.fold b.module.name) ∧
      s.list = .ok (sorted.map (·.module)) := by
  let le (a b : ModuleMetadata) : Bool :=
    (NameKey.ofName a.module.name).precedes (.ofName b.module.name)
  have hperm : (ms.mergeSort le).Perm ms := List.mergeSort_perm ms le
  have hrows : s.rows = (ms.mergeSort le).map encodeModule := by
    rw [MetadataStore.rows, h.rows]
    exact (List.map_mergeSort (r := le) (f := encodeModule) fun _ _ _ _ => rfl).symm
  refine ⟨ms.mergeSort le, hperm, ?_, ?_⟩
  · have htrans (a b c : ModuleMetadata) : le a b = true → le b c = true → le a c = true :=
      NameKey.precedes_trans _ _ _
    have htotal (a b : ModuleMetadata) : (le a b || le b a) = true := NameKey.precedes_total _ _
    have hsorted := List.pairwise_mergeSort htrans htotal ms
    have hapart : (ms.mergeSort le).Pairwise ModuleMetadata.Apart :=
      (hperm.pairwise_iff ModuleMetadata.Apart.symm).2 h.apart
    refine (hsorted.and hapart).imp_of_mem fun {a b} ha hb hab => ?_
    obtain ⟨hprecedes, -, hname⟩ := hab
    have hle : Text.fold a.module.name ≤ Text.fold b.module.name :=
      (NameKey.precedes_ofName_iff (h.plain a (hperm.mem_iff.1 ha))
        (h.plain b (hperm.mem_iff.1 hb))).1 hprecedes
    refine Std.lt_of_le_of_ne hle fun heq => ?_
    rw [Text.sameName_iff.2 heq] at hname
    cases hname
  · rw [list, hrows, Success.mapM_eq_ok, List.forall₂_map_left_iff, List.forall₂_map_right_iff]
    exact List.forall₂_same.2 fun m _ => decodeRef_encodeModule m

theorem containsId_iff (h : s.Holds ms) {id : ModuleId} :
    s.containsId id = true ↔ ∃ m ∈ ms, m.module.id = id := by
  rw [containsId, h.rows]
  simp [encodeModule, ModuleId.text_inj]

end Holds

end MetadataStore

/-! ## Histories -/

/-- A module that changes wrote and that no later one removed: neither a deletion of its identity,
nor a write of its identity or of its name. -/
def Stored (calls : List StoreCall) (m : ModuleMetadata) : Prop :=
  ∃ before after, calls = before ++ .write m :: after ∧ ∀ c ∈ after, c.removes m = false

theorem stored_append_singleton {calls : List StoreCall} {c : StoreCall} {m : ModuleMetadata} :
    Stored (calls ++ [c]) m ↔ c = .write m ∨ Stored calls m ∧ c.removes m = false := by
  constructor
  · rintro ⟨before, after, hsplit, hkept⟩
    obtain rfl | ⟨after, last, rfl⟩ := List.eq_nil_or_concat after
    · obtain ⟨-, hc⟩ := List.append_inj' hsplit rfl
      exact .inl (List.singleton_inj.1 hc)
    · rw [List.concat_eq_append] at hsplit hkept
      obtain ⟨rfl, hc⟩ : calls = before ++ .write m :: after ∧ [c] = [last] :=
        List.append_inj' (by simpa using hsplit) rfl
      obtain rfl := List.singleton_inj.1 hc
      exact .inr ⟨⟨before, after, rfl, fun d hd => hkept d (List.mem_append_left _ hd)⟩,
        hkept c (by simp)⟩
  · rintro (rfl | ⟨⟨before, after, rfl, hkept⟩, hc⟩)
    · exact ⟨calls, [], rfl, by simp⟩
    · refine ⟨before, after ++ [c], by simp, ?_⟩
      simpa [or_imp, forall_and] using ⟨hkept, hc⟩

/-- What is stored after changes is what they wrote and did not remove since. -/
theorem mem_foldl_apply {calls : List StoreCall} {m : ModuleMetadata} :
    m ∈ calls.foldl StoreCall.apply [] ↔ Stored calls m := by
  induction calls using List.reverseRec generalizing m with
  | nil => simp [Stored]
  | append_singleton calls c ih =>
    have hwritten : m ∈ c.written ↔ c = .write m := by
      cases c <;> simp [StoreCall.written, eq_comm]
    rw [List.foldl_append, stored_append_singleton, ← ih]
    simp [StoreCall.apply, hwritten, or_comm]

namespace MetadataStore

/-- The store answers as a map with two keys that holds the modules in `stored`. -/
structure Answers (s : MetadataStore) (stored : ModuleMetadata → Prop) : Prop where
  /-- Each key belongs to one module. -/
  unique : ∀ m m', stored m → stored m' →
    m.module.id = m'.module.id ∨ Text.sameName m.module.name m'.module.name = true → m = m'
  /-- A module is read back by its identity, record for record. -/
  load_iff : ∀ id m, s.load id = .ok m ↔ stored m ∧ m.module.id = id
  missing : ∀ id, (∀ m, stored m → m.module.id ≠ id) → s.load id = .error (.notFound id.text)
  /-- All modules are listed, each once, in the order of their folded names. -/
  listed : ∃ refs, s.list = .ok refs ∧ (∀ ref, ref ∈ refs ↔ ∃ m, stored m ∧ m.module = ref) ∧
    refs.Pairwise fun a b => Text.fold a.name < Text.fold b.name
  /-- A module is found by its name in any case. -/
  found : ∀ name, ∃ ref?, s.find? name = .ok ref? ∧
    ∀ ref, ref? = some ref ↔ (∃ m, stored m ∧ m.module = ref) ∧ Text.sameName ref.name name = true
  /-- A deletion tells whether its identity was stored. -/
  contains_iff : ∀ id, s.containsId id = true ↔ ∃ m, stored m ∧ m.module.id = id

/-- After any writes and deletions, the readings of an initially empty store agree on what is
stored: the modules that were written and that no later change removed. -/
theorem answers_run {calls : List StoreCall} (hplain : ∀ c ∈ calls, c.Plain) :
    (empty.run calls).Answers (Stored calls) := by
  have h : (empty.run calls).Holds (calls.foldl StoreCall.apply []) := Holds.empty.run hplain
  have hstored : Stored calls = (· ∈ calls.foldl StoreCall.apply []) :=
    funext fun m => propext mem_foldl_apply.symm
  rw [hstored]
  generalize calls.foldl StoreCall.apply [] = ms at h
  constructor
  · exact fun m m' hm hm' => h.eq_of_same_key hm hm'
  · intro id m
    rw [← h.find?_id, h.load_eq]
    cases ms.find? (·.module.id = id) <;> simp
  · intro id hmissing
    rw [h.load_eq, List.find?_eq_none.2 (by simpa using hmissing)]
  · obtain ⟨sorted, hperm, hincreasing, hlist⟩ := h.list_eq
    refine ⟨_, hlist, fun ref => ?_, List.pairwise_map.2 hincreasing⟩
    simp only [List.mem_map, hperm.mem_iff]
  · intro name
    refine ⟨_, h.find?_eq name, fun ref => ?_⟩
    simp only [Option.map_eq_some_iff, h.find?_name]
    constructor
    · rintro ⟨m, ⟨hm, hname⟩, rfl⟩
      exact ⟨⟨m, hm, rfl⟩, hname⟩
    · rintro ⟨⟨m, hm, rfl⟩, hname⟩
      exact ⟨m, ⟨hm, hname⟩, rfl⟩
  · exact fun id => h.containsId_iff

/-- A module that takes the identity of one stored module and the name of another displaces both. -/
theorem answers_run_displaced :
    let written (id : ModuleId) (name : String) : ModuleMetadata := ⟨⟨id, name, "1.0"⟩, []⟩
    let calls : List StoreCall := [.write (written ⟨1⟩ "Archive"), .write (written ⟨2⟩ "Reports"),
      .write (written ⟨1⟩ "REPORTS")]
    let s := empty.run calls
    s.load ⟨1⟩ = .ok (written ⟨1⟩ "REPORTS") ∧
      s.load ⟨2⟩ = .error (.notFound (ModuleId.text ⟨2⟩)) ∧ s.containsId ⟨2⟩ = false := by
  intro written calls
  have hplain : ∀ c ∈ calls, c.Plain := by
    simp [calls, StoreCall.Plain, StoreCall.written, written]
  have hname : Text.sameName "REPORTS" "Reports" = true :=
    Text.sameName_of_toList (by decide +kernel)
  have hstored : ∀ m, Stored calls m ↔ m = written ⟨1⟩ "REPORTS" := by
    intro m
    rw [← mem_foldl_apply]
    simp [calls, StoreCall.apply, StoreCall.written, StoreCall.removes, written, hname]
  have answers := answers_run hplain
  generalize empty.run calls = s at answers
  have hmissing : ∀ m, Stored calls m → m.module.id ≠ ⟨2⟩ := by
    intro m hm
    rw [(hstored m).1 hm]
    decide
  refine ⟨(answers.load_iff _ _).2 ⟨(hstored _).2 rfl, rfl⟩, answers.missing _ hmissing, ?_⟩
  rw [Bool.eq_false_iff, Ne, answers.contains_iff]
  rintro ⟨m, hm, hid⟩
  exact hmissing m hm hid

end MetadataStore

end KeywordEngine
