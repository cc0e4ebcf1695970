import KeywordEngine.Proofs.Forest
import KeywordEngine.Registry
import Mathlib.Algebra.GroupWithZero.Nat
import Mathlib.Data.List.Induction

/-!
# The registry stays consistent

The table of modules and the index of names describe the same keywords after every sequence of
calls, those that fail included.

* `Registry.register_of_accepts`, `Registry.register_of_not_accepts`: what one registration does.
* `Registry.Consistent`: the invariant, with one lemma for each kind of change
  (`Consistent.add`, `Consistent.remove`).
* `Registry.get?_modules_run`: the table holds what was registered and not dropped since.
* `Registry.consistent_calls`: the registry after a sequence of calls.
-/

namespace KeywordEngine

open Discovery

/-! ## Keywords of a discovery -/

section Discovery

variable {m : ModuleMetadata} {keywords : SortedMap String KeywordSpec}

/-- What a discovery finds under a name has that name. -/
theorem name_of_get?_of_discover (h : discover m = .ok keywords) {name : String} {k : KeywordSpec}
    (hk : keywords.get? name = some k) : k.name = name := by
  obtain ⟨wf, rfl⟩ := discover_eq_ok.1 h
  obtain ⟨t, -, rfl, rfl⟩ := (get?_declaredModule wf.names).1 hk
  exact t.declared_name ..

/-- A discovery lists its keywords in the order of their names. -/
theorem increasing_names_of_discover (h : discover m = .ok keywords) :
    keywords.values.Pairwise fun a b => compare a.name b.name = .lt := by
  refine List.pairwise_map.2 (keywords.increasing.imp_of_mem fun {e e'} he he' hlt => ?_)
  rwa [name_of_get?_of_discover h (SortedMap.mem_toList_iff.1 he),
    name_of_get?_of_discover h (SortedMap.mem_toList_iff.1 he')]

/-- The keywords that a discovery finds have different names, also apart from case. -/
theorem nodup_names_of_discover (h : discover m = .ok keywords) :
    (keywords.values.map (Text.fold ·.name)).Nodup := by
  have hincreasing := increasing_names_of_discover h
  obtain ⟨wf, rfl⟩ := discover_eq_ok.1 h
  refine List.pairwise_map.2 (hincreasing.imp_of_mem fun {k k'} hk hk' hlt heq => ?_)
  obtain ⟨name, hname⟩ := SortedMap.mem_values.1 hk
  obtain ⟨name', hname'⟩ := SortedMap.mem_values.1 hk'
  obtain ⟨t, ht, -, rfl⟩ := (get?_declaredModule wf.names).1 hname
  obtain ⟨t', ht', -, rfl⟩ := (get?_declaredModule wf.names).1 hname'
  rw [TypeRecord.declared_name, TypeRecord.declared_name] at hlt heq
  obtain rfl : t = t' := List.inj_on_of_nodup_map wf.names ht ht' heq
  simp at hlt

end Discovery

/-! ## One registration -/

namespace Registry

variable {r : Registry} {forest : Nat} {m : ModuleMetadata} {keywords : List Keyword}

/-- The registry accepts a module with these keywords. -/
structure Accepts (r : Registry) (forest : Nat) (m : ModuleMetadata) (keywords : List Keyword) :
    Prop where
  unknown : r.modules.get? m.module.id = none
  discovered : ∃ specs, discover m = .ok specs ∧ keywords = (Forest.mk forest specs.values).keywords
  unclaimed : ∀ k ∈ keywords, r.get? k.name = none

theorem conflict?_eq_none {module : ModuleRef} :
    r.conflict? module keywords = none ↔ ∀ k ∈ keywords, r.get? k.name = none := by
  simp [conflict?, List.findSome?_eq_none_iff]

theorem register_of_accepts (h : r.Accepts forest m keywords) :
    (r.register forest m).registry = r.add m.module keywords ∧
      (r.register forest m).result = .ok keywords.length := by
  obtain ⟨hunknown, ⟨specs, hspecs, rfl⟩, hunclaimed⟩ := h
  have hcontains : r.modules.contains m.module.id = false := by simp [SortedMap.contains, hunknown]
  have hconflict : r.conflict? m.module _ = none := conflict?_eq_none.2 hunclaimed
  unfold register
  simp only [hcontains, hspecs, hconflict]
  exact ⟨rfl, rfl⟩

theorem register_of_not_accepts (h : ∀ keywords, ¬ r.Accepts forest m keywords) :
    (r.register forest m).registry = r ∧ ∃ e, (r.register forest m).result = .error e := by
  unfold register
  split
  · exact ⟨rfl, _, rfl⟩
  · rename_i hcontains
    cases hspecs : discover m with
    | error e => exact ⟨rfl, _, rfl⟩
    | ok specs =>
      simp only
      split
      · exact ⟨rfl, _, rfl⟩
      · rename_i hconflict
        have hunknown : r.modules.get? m.module.id = none := by
          simpa [SortedMap.contains] using hcontains
        exact absurd ⟨hunknown, ⟨specs, hspecs, rfl⟩, conflict?_eq_none.1 hconflict⟩ (h _)

/-! ## The invariant -/

/-- The table of modules and the index describe the same keywords. -/
structure Consistent (r : Registry) : Prop where
  /-- Each module stands under its identity. -/
  module_id : ∀ id e, r.modules.get? id = some e → e.module.id = id
  /-- The keywords of a module have different names. -/
  nodup_names : ∀ id e, r.modules.get? id = some e → (e.keywords.map (Text.fold ·.name)).Nodup
  /-- Keywords of different modules have different names. -/
  name_ne : ∀ id e id' e', r.modules.get? id = some e → r.modules.get? id' = some e' → id ≠ id' →
    ∀ k ∈ e.keywords, ∀ k' ∈ e'.keywords, Text.fold k.name ≠ Text.fold k'.name
  /-- The index finds the keywords of the modules. -/
  index_iff : ∀ key k, r.index.get? key = some k ↔
    ∃ id e, r.modules.get? id = some e ∧ k ∈ e.keywords ∧ Text.fold k.name = key

theorem Consistent.empty : Registry.empty.Consistent := by
  constructor <;> simp [Registry.empty]

theorem Consistent.get?_of_mem (hr : r.Consistent) {id : ModuleId} {e : RegisteredModule}
    (he : r.modules.get? id = some e) {k : Keyword} (hk : k ∈ e.keywords) :
    r.get? k.name = some k :=
  (hr.index_iff _ k).2 ⟨id, e, he, hk, rfl⟩

/-! ### Registering -/

theorem get?_modules_add (r : Registry) (module : ModuleRef) (keywords : List Keyword)
    (id : ModuleId) : (r.add module keywords).modules.get? id =
      if module.id = id then some ⟨module, keywords⟩ else r.modules.get? id :=
  SortedMap.get?_insert ..

theorem get?_index_add {module : ModuleRef}
    (hnames : (keywords.map (Text.fold ·.name)).Nodup)
    (hunclaimed : ∀ k ∈ keywords, r.get? k.name = none) {key : String} {k : Keyword} :
    (r.add module keywords).index.get? key = some k ↔
      (k ∈ keywords ∧ Text.fold k.name = key) ∨ r.index.get? key = some k := by
  have hindex : (r.add module keywords).index =
      r.index.insertMany (keywords.map fun k => (Text.fold k.name, k)) := by
    unfold SortedMap.insertMany
    rw [List.foldl_map]
    rfl
  have hkeys : ((keywords.map fun k => (Text.fold k.name, k)).map (·.1)).Nodup := by
    rw [List.map_map]
    exact hnames
  rw [hindex, SortedMap.get?_insertMany_of_new hkeys]
  · refine or_congr_left ⟨fun h => ?_, fun h => ?_⟩
    · obtain ⟨k', hk', heq⟩ := List.mem_map.1 h
      obtain ⟨hkey, rfl⟩ := Prod.mk.inj heq
      exact ⟨hk', hkey⟩
    · exact List.mem_map.2 ⟨k, h.1, by rw [h.2]⟩
  · intro e he
    obtain ⟨k', hk', rfl⟩ := List.mem_map.1 he
    exact hunclaimed k' hk'

theorem Accepts.nodup_names (h : r.Accepts forest m keywords) :
    (keywords.map (Text.fold ·.name)).Nodup := by
  obtain ⟨-, ⟨specs, hspecs, rfl⟩, -⟩ := h
  have hnames := nodup_names_of_discover hspecs
  rw [show specs.values = _ from ((Forest.mk forest specs.values).map_spec_keywords).symm,
    List.map_map] at hnames
  exact hnames

/-- Registering keeps the registry consistent. -/
theorem Consistent.add (hr : r.Consistent) (h : r.Accepts forest m keywords) :
    (r.add m.module keywords).Consistent where
  module_id id e he := by
    rw [get?_modules_add] at he
    split at he
    · obtain rfl := Option.some.inj he
      assumption
    · exact hr.module_id id e he
  nodup_names id e he := by
    rw [get?_modules_add] at he
    split at he
    · obtain rfl := Option.some.inj he
      exact h.nodup_names
    · exact hr.nodup_names id e he
  name_ne id e id' e' he he' hne k hk k' hk' heq := by
    have hclaimed {k k' : Keyword} {id' : ModuleId} {e' : RegisteredModule} (hk : k ∈ keywords)
        (he' : r.modules.get? id' = some e') (hk' : k' ∈ e'.keywords) :
        Text.fold k.name ≠ Text.fold k'.name := by
      intro heq
      have hnone := h.unclaimed k hk
      unfold Registry.get? at hnone
      rw [heq] at hnone
      exact absurd (hnone.symm.trans (hr.get?_of_mem he' hk')) nofun
    rw [get?_modules_add] at he he'
    split at he <;> split at he'
    · simp_all
    · obtain rfl := Option.some.inj he
      exact hclaimed hk he' hk' heq
    · obtain rfl := Option.some.inj he'
      exact hclaimed hk' he hk heq.symm
    · exact hr.name_ne id e id' e' he he' hne k hk k' hk' heq
  index_iff key k := by
    rw [get?_index_add h.nodup_names h.unclaimed, hr.index_iff]
    constructor
    · rintro (⟨hk, hkey⟩ | ⟨id, e, he, hk, hkey⟩)
      · exact ⟨m.module.id, _, by rw [get?_modules_add, if_pos rfl], hk, hkey⟩
      · have hne : m.module.id ≠ id := by
          rintro rfl
          exact absurd (he.symm.trans h.unknown) nofun
        exact ⟨id, e, by rw [get?_modules_add, if_neg hne, he], hk, hkey⟩
    · rintro ⟨id, e, he, hk, hkey⟩
      rw [get?_modules_add] at he
      split at he
      · obtain rfl := Option.some.inj he
        exact .inl ⟨hk, hkey⟩
      · exact .inr ⟨id, e, he, hk, hkey⟩

/-! ### Removing -/

theorem get?_eraseNames (index : SortedMap String Keyword) (keywords : List Keyword)
    (key : String) :
    (keywords.foldl (fun index k => index.erase (Text.fold k.name)) index).get? key =
      if key ∈ keywords.map (Text.fold ·.name) then none else index.get? key := by
  induction keywords generalizing index with
  | nil => simp
  | cons k rest ih =>
    rw [List.foldl_cons, ih, SortedMap.get?_erase, List.map_cons]
    by_cases hkey : Text.fold k.name = key
    · simp [hkey]
    · simp [hkey, Ne.symm hkey]

/-- Removing a module keeps the registry consistent. -/
theorem Consistent.remove (hr : r.Consistent) (id : ModuleId) : (r.remove id).Consistent := by
  unfold Registry.remove
  split
  · exact hr
  · rename_i removed hremoved
    have hget : ∀ id' e, (r.modules.erase id).get? id' = some e ↔
        id ≠ id' ∧ r.modules.get? id' = some e := by
      intro id' e
      rw [SortedMap.get?_erase]
      split <;> simp_all
    constructor
    · intro id' e he
      exact hr.module_id id' e ((hget id' e).1 he).2
    · intro id' e he
      exact hr.nodup_names id' e ((hget id' e).1 he).2
    · intro id₁ e₁ id₂ e₂ he₁ he₂
      exact hr.name_ne id₁ e₁ id₂ e₂ ((hget id₁ e₁).1 he₁).2 ((hget id₂ e₂).1 he₂).2
    · intro key k
      simp only [get?_eraseNames, hget]
      constructor
      · intro h
        split at h
        · cases h
        · rename_i hkey
          obtain ⟨id', e, he, hk, rfl⟩ := (hr.index_iff key k).1 h
          refine ⟨id', e, ⟨?_, he⟩, hk, rfl⟩
          rintro rfl
          obtain rfl := Option.some.inj (he.symm.trans hremoved)
          exact hkey (List.mem_map.2 ⟨k, hk, rfl⟩)
      · rintro ⟨id', e, ⟨hne, he⟩, hk, rfl⟩
        rw [if_neg]
        · exact hr.get?_of_mem he hk
        · intro hkey
          obtain ⟨k', hk', heq⟩ := List.mem_map.1 hkey
          exact hr.name_ne id removed id' e hremoved he hne k' hk' k hk heq

/-! ### What consistency says of all keywords -/

namespace Consistent

theorem map_id_values (hr : r.Consistent) :
    r.modules.values.map (·.module.id) = r.modules.keys := by
  unfold SortedMap.values SortedMap.keys
  rw [List.map_map]
  refine List.map_congr_left fun e he => ?_
  exact hr.module_id e.1 e.2 (SortedMap.mem_toList_iff.1 he)

/-- A lookup finds the keywords of the modules by their names. -/
theorem get?_iff (hr : r.Consistent) (name : String) (k : Keyword) :
    r.get? name = some k ↔
      ∃ e ∈ r.modules.values, k ∈ e.keywords ∧ Text.sameName k.name name = true := by
  unfold Registry.get?
  simp only [hr.index_iff, SortedMap.mem_values, Text.sameName_iff]
  constructor
  · rintro ⟨id, e, he, hk, hname⟩
    exact ⟨e, ⟨id, he⟩, hk, hname⟩
  · rintro ⟨e, ⟨id, he⟩, hk, hname⟩
    exact ⟨id, e, he, hk, hname⟩

/-- The names of all keywords are different, also apart from case. -/
theorem nodup_all_names (hr : r.Consistent) :
    ((r.modules.values.flatMap (·.keywords)).map (Text.fold ·.name)).Nodup := by
  rw [List.map_flatMap, List.nodup_flatMap]
  constructor
  · intro e he
    obtain ⟨id, hid⟩ := SortedMap.mem_values.1 he
    exact hr.nodup_names id e hid
  · refine List.pairwise_map.2 (r.modules.increasing.imp_of_mem fun {a b} ha hb hlt => ?_)
    rw [SortedMap.mem_toList_iff] at ha hb
    have hne : a.1 ≠ b.1 := by
      intro heq
      simp [heq] at hlt
    intro name hname hname'
    obtain ⟨k, hk, rfl⟩ := List.mem_map.1 hname
    obtain ⟨k', hk', heq⟩ := List.mem_map.1 hname'
    exact hr.name_ne _ _ _ _ ha hb hne k hk k' hk' heq.symm

/-- The index lists the names of all keywords. -/
theorem keys_perm (hr : r.Consistent) :
    r.index.keys.Perm ((r.modules.values.flatMap (·.keywords)).map (Text.fold ·.name)) := by
  refine (List.perm_ext_iff_of_nodup r.index.nodup_keys hr.nodup_all_names).2 fun key => ?_
  simp only [SortedMap.mem_keys, hr.index_iff, List.mem_map, List.mem_flatMap,
    SortedMap.mem_values]
  constructor
  · rintro ⟨k, id, e, he, hk, hkey⟩
    exact ⟨k, ⟨e, ⟨id, he⟩, hk⟩, hkey⟩
  · rintro ⟨k, ⟨e, ⟨id, he⟩, hk⟩, hkey⟩
    exact ⟨k, id, e, he, hk, hkey⟩

/-- The registry counts the keywords of its modules. -/
theorem size_eq (hr : r.Consistent) :
    r.size = (r.modules.values.map (·.keywords.length)).sum := by
  have hlength := hr.keys_perm.length_eq
  rw [List.length_map, List.length_flatMap, SortedMap.keys, List.length_map] at hlength
  exact hlength

end Consistent

end Registry

/-! ## Histories -/

/-- A change of a registry. -/
inductive RegistryStep where
  | register (forest : Nat) (m : ModuleMetadata)
  | remove (id : ModuleId)
  /-- Everything is removed. -/
  | reset

/-- Whether a step removes the module with that identity, if it is registered. -/
def RegistryStep.drops (id : ModuleId) : RegistryStep → Bool
  | register .. => false
  | remove removed => removed = id
  | reset => true

/-- A call of a registry. -/
inductive RegistryCall where
  | step (s : RegistryStep)
  /-- The modules of a store are registered one after the other. -/
  | registerStore (forest : Nat) (s : MetadataStore)

namespace Registry

/-- The registry after a step. -/
def step (r : Registry) : RegistryStep → Registry
  | .register forest m => (r.register forest m).registry
  | .remove id => r.remove id
  | .reset => empty

/-- The registry after steps. -/
def run (r : Registry) (steps : List RegistryStep) : Registry := steps.foldl step r

/-- The registry after a call. -/
def call (r : Registry) : RegistryCall → Registry
  | .step s => r.step s
  | .registerStore forest s =>
    match r.registerStore forest s with
    | .ok registration => registration.registry
    | .error _ => r

end Registry

/-- The registrations of stored modules, as the forests from `forest` on. What does not load is not
registered. -/
def storeSteps (s : MetadataStore) (forest : Nat) : List ModuleRef → List RegistryStep
  | [] => []
  | m :: rest =>
    match s.load m.id with
    | .error _ => storeSteps s (forest + 1) rest
    | .ok metadata => .register forest metadata :: storeSteps s (forest + 1) rest

/-- The steps of a call. -/
def RegistryCall.steps : RegistryCall → List RegistryStep
  | step s => [s]
  | registerStore forest s =>
    match s.list with
    | .ok modules => storeSteps s forest modules
    | .error _ => []

namespace Registry

variable {r : Registry}

theorem registry_registerModules (s : MetadataStore) (r : Registry) (forest : Nat)
    (l : List ModuleRef) : (registerModules s r forest l).registry = r.run (storeSteps s forest l) := by
  induction l generalizing r forest with
  | nil => rfl
  | cons m rest ih =>
    unfold registerModules storeSteps
    cases s.load m.id with
    | error e => exact ih r (forest + 1)
    | ok metadata => exact ih _ (forest + 1)

theorem call_eq (r : Registry) (c : RegistryCall) : r.call c = r.run c.steps := by
  cases c with
  | step s => rfl
  | registerStore forest s =>
    simp only [call, RegistryCall.steps, registerStore]
    cases s.list with
    | error e => rfl
    | ok modules => exact registry_registerModules s r forest modules

theorem foldl_call (r : Registry) (calls : List RegistryCall) :
    calls.foldl call r = r.run (calls.flatMap (·.steps)) := by
  induction calls generalizing r with
  | nil => rfl
  | cons c rest ih =>
    rw [List.foldl_cons, ih, call_eq, List.flatMap_cons]
    unfold run
    rw [List.foldl_append]

/-- Each step keeps the registry consistent. -/
theorem Consistent.step (hr : r.Consistent) (s : RegistryStep) : (r.step s).Consistent := by
  cases s with
  | register forest m =>
    show (r.register forest m).registry.Consistent
    by_cases haccepts : ∃ keywords, r.Accepts forest m keywords
    · obtain ⟨keywords, h⟩ := haccepts
      rw [(register_of_accepts h).1]
      exact hr.add h
    · rw [not_exists] at haccepts
      rwa [(register_of_not_accepts haccepts).1]
  | remove id => exact hr.remove id
  | reset => exact .empty

/-- All steps together keep the registry consistent. -/
theorem Consistent.run (hr : r.Consistent) (steps : List RegistryStep) :
    (r.run steps).Consistent := by
  induction steps generalizing r with
  | nil => exact hr
  | cons s rest ih => exact ih (hr.step s)

/-! ### Where modules come from -/

theorem Accepts.unique {forest : Nat} {m : ModuleMetadata} {keywords keywords' : List Keyword}
    (h : r.Accepts forest m keywords) (h' : r.Accepts forest m keywords') : keywords = keywords' := by
  obtain ⟨specs, hspecs, rfl⟩ := h.discovered
  obtain ⟨specs', hspecs', rfl⟩ := h'.discovered
  obtain rfl := Except.ok.inj (hspecs.symm.trans hspecs')
  rfl

/-- From an empty registry the steps register a module, with the entry `e`, and do not drop it
afterwards. -/
def Registers (steps : List RegistryStep) (e : RegisteredModule) : Prop :=
  ∃ before forest m after, steps = before ++ .register forest m :: after ∧
    (empty.run before).Accepts forest m e.keywords ∧ e.module = m.module ∧
    ∀ s ∈ after, s.drops e.module.id = false

theorem registers_append_singleton {steps : List RegistryStep} {s : RegistryStep}
    {e : RegisteredModule} :
    Registers (steps ++ [s]) e ↔
      (∃ forest m, s = .register forest m ∧ (empty.run steps).Accepts forest m e.keywords ∧
        e.module = m.module) ∨ (Registers steps e ∧ s.drops e.module.id = false) := by
  constructor
  · rintro ⟨before, forest, m, after, hsplit, haccepts, hmodule, hkept⟩
    obtain rfl | ⟨after, last, rfl⟩ := List.eq_nil_or_concat after
    · obtain ⟨rfl, hs⟩ := List.append_inj' hsplit rfl
      exact .inl ⟨forest, m, List.singleton_inj.1 hs, haccepts, hmodule⟩
    · rw [List.concat_eq_append] at hsplit hkept
      obtain ⟨rfl, hs⟩ : steps = before ++ .register forest m :: after ∧ [s] = [last] :=
        List.append_inj' (by simpa using hsplit) rfl
      obtain rfl := List.singleton_inj.1 hs
      exact .inr ⟨⟨before, forest, m, after, rfl, haccepts, hmodule,
        fun t ht => hkept t (List.mem_append_left _ ht)⟩, hkept s (by simp)⟩
  · rintro (⟨forest, m, rfl, haccepts, hmodule⟩ |
      ⟨⟨before, forest, m, after, rfl, haccepts, hmodule, hkept⟩, hs⟩)
    · exact ⟨steps, forest, m, [], rfl, haccepts, hmodule, by simp⟩
    · refine ⟨before, forest, m, after ++ [s], by simp, haccepts, hmodule, ?_⟩
      simpa [or_imp, forall_and] using ⟨hkept, hs⟩

theorem get?_modules_remove (r : Registry) (removed id : ModuleId) :
    (r.remove removed).modules.get? id = if removed = id then none else r.modules.get? id := by
  unfold remove
  split
  · rename_i hnone
    split
    · rename_i heq
      rw [← heq, hnone]
    · rfl
  · exact SortedMap.get?_erase ..

/-- The table holds the modules that were registered and not dropped since. -/
theorem get?_modules_run {steps : List RegistryStep} {id : ModuleId} {e : RegisteredModule} :
    (empty.run steps).modules.get? id = some e ↔ Registers steps e ∧ e.module.id = id := by
  induction steps using List.reverseRec generalizing id e with
  | nil =>
    refine iff_of_false (by simp [run, empty]) ?_
    rintro ⟨⟨before, forest, m, after, hsplit, -⟩, -⟩
    simp at hsplit
  | append_singleton steps s ih =>
    have hrun : empty.run (steps ++ [s]) = (empty.run steps).step s := by
      unfold run
      rw [List.foldl_append]
      rfl
    rw [hrun, registers_append_singleton]
    cases s with
    | reset => simp [Registry.step, empty, RegistryStep.drops]
    | remove removed =>
      rw [Registry.step, get?_modules_remove]
      simp only [reduceCtorEq, false_and, exists_false, false_or, RegistryStep.drops,
        decide_eq_false_iff_not]
      by_cases hremoved : removed = id
      · rw [if_pos hremoved]
        refine iff_of_false nofun ?_
        rintro ⟨⟨-, hkept⟩, rfl⟩
        exact hkept hremoved
      · rw [if_neg hremoved, ih]
        constructor
        · rintro ⟨h, rfl⟩
          exact ⟨⟨h, hremoved⟩, rfl⟩
        · rintro ⟨⟨h, -⟩, hid⟩
          exact ⟨h, hid⟩
    | register forest m =>
      show ((empty.run steps).register forest m).registry.modules.get? id = some e ↔ _
      simp only [RegistryStep.register.injEq, RegistryStep.drops, and_true]
      by_cases haccepts : ∃ keywords, (empty.run steps).Accepts forest m keywords
      · obtain ⟨keywords, h⟩ := haccepts
        rw [(register_of_accepts h).1, get?_modules_add]
        constructor
        · intro he
          split at he
          · rename_i hid
            obtain rfl := Option.some.inj he
            exact ⟨.inl ⟨forest, m, ⟨rfl, rfl⟩, h, rfl⟩, hid⟩
          · obtain ⟨hregisters, hid⟩ := ih.1 he
            exact ⟨.inr hregisters, hid⟩
        · rintro ⟨⟨_, _, ⟨rfl, rfl⟩, h', hmodule⟩ | hregisters, rfl⟩
          · obtain rfl := h.unique h'
            rw [if_pos (by rw [hmodule]), ← hmodule]
          · have hold := ih.2 ⟨hregisters, rfl⟩
            rw [if_neg, hold]
            intro hid
            rw [← hid, h.unknown] at hold
            cases hold
      · rw [not_exists] at haccepts
        rw [(register_of_not_accepts haccepts).1, ih]
        constructor
        · rintro ⟨hregisters, hid⟩
          exact ⟨.inr hregisters, hid⟩
        · rintro ⟨⟨_, _, ⟨rfl, rfl⟩, h, -⟩ | hregisters, hid⟩
          · exact absurd h (haccepts _)
          · exact ⟨hregisters, hid⟩

/-- A registered module lists its keywords in the order of their names. -/
theorem increasing_names_of_registers {steps : List RegistryStep} {e : RegisteredModule}
    (h : Registers steps e) : e.keywords.Pairwise fun a b => compare a.name b.name = .lt := by
  obtain ⟨before, forest, m, after, -, haccepts, -⟩ := h
  obtain ⟨specs, hspecs, hkeywords⟩ := haccepts.discovered
  have hnames := increasing_names_of_discover hspecs
  rw [show specs.values = _ from ((Forest.mk forest specs.values).map_spec_keywords).symm,
    ← hkeywords] at hnames
  exact List.pairwise_map.1 hnames

/-- A registration that fails changes nothing. -/
theorem registry_register_of_error {forest : Nat} {m : ModuleMetadata} {e : RegistryError}
    (h : (r.register forest m).result = .error e) : (r.register forest m).registry = r := by
  by_cases haccepts : ∃ keywords, r.Accepts forest m keywords
  · obtain ⟨keywords, haccepts⟩ := haccepts
    rw [(register_of_accepts haccepts).2] at h
    cases h
  · rw [not_exists] at haccepts
    exact (register_of_not_accepts haccepts).1

/-- After any calls, the table of modules and the index of an initially empty registry describe the
same set: that of the keywords of the modules which were registered and not dropped since. No
identity and no name is there twice, and a registration that fails changes nothing. -/
theorem consistent_calls (calls : List RegistryCall) :
    let r := calls.foldl call empty
    (r.modules.values.map (·.module.id)).Nodup ∧
      ((r.modules.values.flatMap (·.keywords)).map (Text.fold ·.name)).Nodup ∧
      (∀ name k, r.get? name = some k ↔
        ∃ e ∈ r.modules.values, k ∈ e.keywords ∧ Text.sameName k.name name = true) ∧
      r.size = (r.modules.values.map (·.keywords.length)).sum ∧
      (∀ e, e ∈ r.modules.values ↔ Registers (calls.flatMap (·.steps)) e) ∧
      (∀ e ∈ r.modules.values, e.keywords.Pairwise fun a b => compare a.name b.name = .lt) ∧
      ∀ forest m e, (r.register forest m).result = .error e → (r.register forest m).registry = r := by
  intro r
  have hrun : r = empty.run (calls.flatMap (·.steps)) := foldl_call empty calls
  have hr : r.Consistent := by
    rw [hrun]
    exact Consistent.empty.run _
  have hregisters : ∀ e, e ∈ r.modules.values ↔ Registers (calls.flatMap (·.steps)) e := by
    intro e
    rw [SortedMap.mem_values, hrun]
    simp only [get?_modules_run, exists_and_left, exists_eq', and_true]
  refine ⟨?_, hr.nodup_all_names, hr.get?_iff, hr.size_eq, hregisters, ?_, ?_⟩
  · rw [hr.map_id_values]
    exact r.modules.nodup_keys
  · intro e he
    exact increasing_names_of_registers ((hregisters e).1 he)
  · intro forest m e
    exact registry_register_of_error

/-- A module is registered once, and its keyword is found in any case. -/
theorem consistent_calls_letter :
    let r := [RegistryCall.step (.register 0 Letter.metadata)].foldl call empty
    (r.register 1 Letter.metadata).registry = r ∧ ∃ k, r.get? "LETTER" = some k := by
  intro r
  obtain ⟨-, -, hget, -, -, -, hfailed⟩ :=
    consistent_calls [RegistryCall.step (.register 0 Letter.metadata)]
  have htwice : (r.register 1 Letter.metadata).result = .error (.duplicateModule "Letters@1.0") := by
    decide +kernel
  have hnames : (r.modules.values.flatMap (·.keywords)).map (·.name) = ["Letter"] := by
    decide +kernel
  obtain ⟨k, hk, hname⟩ := List.mem_map.1 (hnames ▸ List.mem_singleton_self "Letter")
  obtain ⟨e, he, hlisted⟩ := List.mem_flatMap.1 hk
  have hsame : Text.sameName k.name "LETTER" = true := by
    rw [hname, Text.sameName_iff]
    apply String.ext
    simp only [Text.fold, String.toList_map]
    decide +kernel
  exact ⟨hfailed 1 Letter.metadata _ htwice, k, (hget "LETTER" k).2 ⟨e, he, hlisted, hsame⟩⟩

end Registry

end KeywordEngine
