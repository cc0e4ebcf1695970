import KeywordEngine.Proofs.Registry
import KeywordEngine.Proofs.StoreDeletion

/-!
# Failing modules of a store leave no trace

A module that is not registered changes nothing for the modules after it: without it in the store
they get the same reports, and the registry comes to hold the same.

* `Registry.Alike`: registries that hold the same keywords, each at places of its own.
* `Registry.attempt`: one module of a store. Alike registries take it alike (`Alike.attempt`), and a
  failed attempt changes nothing (`registry_attempt_of_error`).
* `Registry.alike_registerModules`: modules with some of the failing ones left out.
* `Registry.alike_registerStore`: a store with some of the failing modules deleted.
-/

namespace KeywordEngine

/-- What is registered of a module, wherever its keywords stand. -/
def RegisteredModule.content (e : RegisteredModule) : ModuleRef × List KeywordSpec :=
  (e.module, e.keywords.map (·.spec))

namespace Registry

/-- Registries that hold the same modules and find the same keywords, each at places of its own. -/
structure Alike (r r' : Registry) : Prop where
  modules : ∀ id, (r.modules.get? id).map (·.content) = (r'.modules.get? id).map (·.content)
  index : ∀ key, (r.index.get? key).map (·.spec) = (r'.index.get? key).map (·.spec)

namespace Alike

variable {r r' : Registry}

theorem refl (r : Registry) : r.Alike r := ⟨fun _ => rfl, fun _ => rfl⟩

theorem contains_eq (h : r.Alike r') (id : ModuleId) :
    r.modules.contains id = r'.modules.contains id := by
  have hsome := congrArg Option.isSome (h.modules id)
  rwa [Option.isSome_map, Option.isSome_map] at hsome

theorem conflict?_eq (h : r.Alike r') {keywords keywords' : List Keyword}
    (hspecs : keywords.map (·.spec) = keywords'.map (·.spec)) (module : ModuleRef) :
    r.conflict? module keywords = r'.conflict? module keywords' := by
  -- what is complained about is read off specifications alone
  have hread (r : Registry) (keywords : List Keyword) : r.conflict? module keywords =
      (keywords.map (·.spec)).findSome? fun spec =>
        ((r.index.get? (Text.fold spec.name)).map (·.spec)).map fun old =>
          .keywordConflict spec.name old.module.text module.text := by
    rw [conflict?, List.findSome?_map]
    congr 1
    funext k
    rw [Function.comp, Option.map_map]
    rfl
  rw [hread, hread, hspecs]
  simp only [h.index]

theorem addToIndex {index index' : SortedMap String Keyword} {keywords keywords' : List Keyword}
    (h : ∀ key, (index.get? key).map (·.spec) = (index'.get? key).map (·.spec))
    (hspecs : keywords.map (·.spec) = keywords'.map (·.spec)) (key : String) :
    ((keywords.foldl Registry.addToIndex index).get? key).map (·.spec) =
      ((keywords'.foldl Registry.addToIndex index').get? key).map (·.spec) := by
  induction keywords generalizing keywords' index index' with
  | nil =>
    obtain rfl := List.map_eq_nil_iff.1 hspecs.symm
    exact h key
  | cons k rest ih =>
    obtain ⟨k', rest', rfl, hk, hrest⟩ := List.map_eq_cons_iff.1 hspecs.symm
    rw [List.foldl_cons, List.foldl_cons]
    refine ih (fun key => ?_) hrest.symm
    unfold Registry.addToIndex
    rw [SortedMap.get?_insert, SortedMap.get?_insert, Keyword.name, Keyword.name, hk]
    split
    · rw [Option.map_some, Option.map_some, hk]
    · exact h key

theorem add (h : r.Alike r') {keywords keywords' : List Keyword}
    (hspecs : keywords.map (·.spec) = keywords'.map (·.spec)) (module : ModuleRef) :
    (r.add module keywords).Alike (r'.add module keywords') where
  modules id := by
    rw [get?_modules_add, get?_modules_add]
    split
    · rw [Option.map_some, Option.map_some, RegisteredModule.content, RegisteredModule.content,
        hspecs]
    · exact h.modules id
  index := addToIndex h.index hspecs

/-- Alike registries accept the same modules and stay alike. -/
theorem register (h : r.Alike r') (forest forest' : Nat) (m : ModuleMetadata) :
    (r.register forest m).result = (r'.register forest' m).result ∧
      (r.register forest m).registry.Alike (r'.register forest' m).registry := by
  unfold Registry.register
  rw [h.contains_eq]
  split
  · exact ⟨rfl, h⟩
  · cases Discovery.discover m with
    | error e => exact ⟨rfl, h⟩
    | ok specs =>
      have hspecs : (Forest.mk forest specs.values).keywords.map (·.spec) =
          (Forest.mk forest' specs.values).keywords.map (·.spec) := by
        rw [Forest.map_spec_keywords, Forest.map_spec_keywords]
      have hlength := congrArg List.length hspecs
      rw [List.length_map, List.length_map] at hlength
      simp only [h.conflict?_eq hspecs]
      split
      · exact ⟨rfl, h⟩
      · exact ⟨congrArg Except.ok hlength, h.add hspecs m.module⟩

end Alike

/-! ## One module of a store -/

/-- An attempt to register a stored module: the registry afterwards and the report. -/
def attempt (s : MetadataStore) (r : Registry) (forest : Nat) (m : ModuleRef) :
    Registry × Except RegistryError Nat :=
  match s.load m.id with
  | .error e => (r, .error (.metadata e))
  | .ok metadata => ((r.register forest metadata).registry, (r.register forest metadata).result)

theorem registerModules_cons (s : MetadataStore) (r : Registry) (forest : Nat) (m : ModuleRef)
    (rest : List ModuleRef) :
    (registerModules s r forest (m :: rest)).registry =
        (registerModules s (attempt s r forest m).1 (forest + 1) rest).registry ∧
      (registerModules s r forest (m :: rest)).reports = ⟨m, (attempt s r forest m).2⟩ ::
        (registerModules s (attempt s r forest m).1 (forest + 1) rest).reports := by
  unfold attempt
  rw [registerModules]
  cases s.load m.id <;> exact ⟨rfl, rfl⟩

/-- An attempt that fails changes nothing. -/
theorem registry_attempt_of_error {s : MetadataStore} {r : Registry} {forest : Nat} {m : ModuleRef}
    {e : RegistryError} (h : (attempt s r forest m).2 = .error e) :
    (attempt s r forest m).1 = r := by
  unfold attempt at *
  cases hload : s.load m.id with
  | error e => rfl
  | ok metadata =>
    rw [hload] at h
    exact registry_register_of_error h

theorem Alike.attempt {s s' : MetadataStore} {r r' : Registry} (h : r.Alike r') {m : ModuleRef}
    (hload : s'.load m.id = s.load m.id) (forest forest' : Nat) :
    (Registry.attempt s r forest m).2 = (Registry.attempt s' r' forest' m).2 ∧
      (Registry.attempt s r forest m).1.Alike (Registry.attempt s' r' forest' m).1 := by
  unfold Registry.attempt
  rw [hload]
  cases s.load m.id with
  | error e => exact ⟨rfl, h⟩
  | ok metadata => exact h.register forest forest' metadata

/-! ## All modules of a store -/

/-- The reports on modules with none of some identities. -/
def reportsOutside (ids : List ModuleId) (reports : List ModuleReport) : List ModuleReport :=
  reports.filter fun p => !ids.contains p.module.id

/-- Modules of which failing ones are left out get the same reports and leave the same behind. -/
theorem alike_registerModules {s s' : MetadataStore} {ids : List ModuleId}
    (hkept : ∀ id, id ∉ ids → s'.load id = s.load id)
    (hgone : ∀ id ∈ ids, ∃ e, s'.load id = .error e) {l l' : List ModuleRef}
    (hthinned : Thinned ids l l') {r r' : Registry} (h : r.Alike r') (forest forest' : Nat)
    (hfail : ∀ p ∈ (registerModules s r forest l).reports, p.module.id ∈ ids →
      ∃ e, p.result = .error e) :
    (registerModules s r forest l).registry.Alike (registerModules s' r' forest' l').registry ∧
      reportsOutside ids (registerModules s' r' forest' l').reports =
        reportsOutside ids (registerModules s r forest l).reports := by
  induction hthinned generalizing r r' forest forest' with
  | nil => exact ⟨h, rfl⟩
  | @keep m l l' _ ih =>
    obtain ⟨hregistry, hreports⟩ := registerModules_cons s r forest m l
    obtain ⟨hregistry', hreports'⟩ := registerModules_cons s' r' forest' m l'
    rw [hreports, List.forall_mem_cons] at hfail
    rw [hregistry, hreports, hregistry', hreports']
    by_cases hm : m.id ∈ ids
    · -- neither run registers the module, so both go on from where they were
      obtain ⟨e, he⟩ := hfail.1 hm
      have hr' : (attempt s' r' forest' m).1 = r' := by
        obtain ⟨e', hload⟩ := hgone m.id hm
        rw [attempt, hload]
      have hrest := hfail.2
      rw [registry_attempt_of_error he] at hrest ⊢
      rw [hr']
      obtain ⟨halike, hrest⟩ := ih h (forest + 1) (forest' + 1) hrest
      refine ⟨halike, ?_⟩
      unfold reportsOutside at *
      rw [List.filter_cons_of_neg (by simpa using hm), List.filter_cons_of_neg (by simpa using hm),
        hrest]
    · obtain ⟨hresult, hattempt⟩ := h.attempt (hkept m.id hm) forest forest'
      obtain ⟨halike, hrest⟩ := ih hattempt (forest + 1) (forest' + 1) hfail.2
      refine ⟨halike, ?_⟩
      unfold reportsOutside at *
      rw [List.filter_cons_of_pos (by simpa using hm), List.filter_cons_of_pos (by simpa using hm),
        hrest, hresult]
  | @leave m l l' hm _ ih =>
    obtain ⟨hregistry, hreports⟩ := registerModules_cons s r forest m l
    rw [hreports, List.forall_mem_cons] at hfail
    rw [hregistry, hreports]
    obtain ⟨e, he⟩ := hfail.1 hm
    have hrest := hfail.2
    rw [registry_attempt_of_error he] at hrest ⊢
    obtain ⟨halike, hrest⟩ := ih h (forest + 1) forest' hrest
    refine ⟨halike, ?_⟩
    unfold reportsOutside at *
    rw [List.filter_cons_of_neg (by simpa using hm), hrest]

theorem map_module_reports (s : MetadataStore) (r : Registry) (forest : Nat) (l : List ModuleRef) :
    (registerModules s r forest l).reports.map (·.module) = l := by
  induction l generalizing r forest with
  | nil => rfl
  | cons m rest ih => rw [(registerModules_cons s r forest m rest).2, List.map_cons, ih]

/-- A store without some of its failing modules gives the same reports on the others and leaves the
same behind. -/
theorem alike_registerStore {s : MetadataStore} {r : Registry} {forest : Nat} (forest' : Nat)
    {full : StoreRegistration} (h : r.registerStore forest s = .ok full) {ids : List ModuleId}
    (hfail : ∀ p ∈ full.reports, p.module.id ∈ ids → ∃ e, p.result = .error e) :
    ∃ rest, r.registerStore forest' (s.deleteAll ids) = .ok rest ∧
      full.registry.Alike rest.registry ∧
      reportsOutside ids rest.reports = reportsOutside ids full.reports ∧
      (s.Canonical → rest.reports = reportsOutside ids full.reports) := by
  obtain ⟨l, hlist, rfl⟩ := Success.map_eq_ok.1 h
  obtain ⟨l', hlist', hthinned⟩ := MetadataStore.list_deleteAll hlist
  obtain ⟨halike, hreports⟩ := alike_registerModules
    (fun id => MetadataStore.load_deleteAll_of_notMem)
    (fun id hid => ⟨_, MetadataStore.load_deleteAll_of_mem hid⟩) hthinned (.refl r) forest forest'
    hfail
  refine ⟨_, Success.map_eq_ok.2 ⟨l', hlist', rfl⟩, halike, hreports, fun hcanonical => ?_⟩
  have hall := map_module_reports (s.deleteAll ids) r forest' l'
  rw [← hreports, reportsOutside, List.filter_eq_self.2]
  intro p hp
  have hlisted : p.module ∈ l' := hall ▸ List.mem_map.2 ⟨p, hp, rfl⟩
  simpa using MetadataStore.id_notMem_of_list_deleteAll hcanonical hlist' p.module hlisted

end Registry

end KeywordEngine
