import KeywordEngine.Proofs.LoadHistory
import KeywordEngine.Proofs.RegistrationIsolation

/-!
# Modules are bound apart from each other

What binding all modules does to one of them depends on that module alone. It does not matter which
others are bound before or after it, nor which forest its keywords have got.

* `Keyword.moved`: the keyword in the same place of another forest. It resolves to the same code
  (`resolveRequest_moved`).
* `Bindings.Agree`: the keywords of a forest have the same code as those of another one. Binding
  both leaves it so (`Binder.agree_bind`).
* `Registry.exists_bind`: among modules apart from each other, each is bound as if it were alone.
* `Registry.agree_bindAll`: two registries with one module in common.
* `Registry.isolated`: that, and the same for the registration of a store.
-/

namespace KeywordEngine

/-! ## The same keywords in another forest -/

/-- The same place of another forest. -/
def KeywordId.moved (id : KeywordId) (forest : Nat) : KeywordId := ⟨forest, id.path⟩

/-- The keyword in the same place of another forest. -/
def Keyword.moved (k : Keyword) (forest : Nat) : Keyword := ⟨k.id.moved forest, k.spec⟩

/-- The attachment in the same place of another forest. -/
def Attachment.moved (a : Attachment) (forest : Nat) : Attachment :=
  { a with id := a.id.moved forest }

@[simp] theorem KeywordId.child_moved (id : KeywordId) (forest index : Nat) :
    (id.moved forest).child index = (id.child index).moved forest := rfl

@[simp] theorem Keyword.id_moved (k : Keyword) (forest : Nat) :
    (k.moved forest).id = k.id.moved forest := rfl

@[simp] theorem Keyword.spec_moved (k : Keyword) (forest : Nat) :
    (k.moved forest).spec = k.spec := rfl

theorem KeywordId.moved_inj {p q : KeywordId} (h : p.forest = q.forest) {forest : Nat} :
    p.moved forest = q.moved forest ↔ p = q := by
  obtain ⟨f, path⟩ := p
  obtain ⟨f', path'⟩ := q
  obtain rfl : f = f' := h
  simp [moved]

theorem Forest.keywords_moved (f : Forest) (forest : Nat) :
    (Forest.mk forest f.specs).keywords = f.keywords.map (·.moved forest) :=
  List.ext_getElem (by simp [keywords]) (by simp [keywords, Keyword.moved, KeywordId.moved])

mutual
theorem resolveTree_moved (forest : Nat) (id : KeywordId) (t : Implementation)
    (spec : KeywordSpec) : resolveTree (id.moved forest) t spec =
      (resolveTree id t spec).map (List.map (·.moved forest)) := by
  obtain ⟨name, body, use, defaultSet, parameters, properties, children, isNested, module⟩ := spec
  unfold resolveTree
  rw [resolveChildren_moved forest id name t 0 children]
  cases resolveChildren id name t 0 children with
  | error e => rfl
  | ok nested => exact congrArg Except.ok (by rw [List.map_append]; rfl)

theorem resolveChildren_moved (forest : Nat) (id : KeywordId) (parent : String) (t : Implementation)
    (index : Nat) (specs : List KeywordSpec) :
    resolveChildren (id.moved forest) parent t index specs =
      (resolveChildren id parent t index specs).map (List.map (·.moved forest)) := by
  cases specs with
  | nil =>
    unfold resolveChildren
    rfl
  | cons spec rest =>
    unfold resolveChildren
    cases t.nested? spec.name with
    | none => rfl
    | some u =>
      have htree := resolveTree_moved forest (id.child index) u spec
      simp only [KeywordId.child_moved, htree,
        resolveChildren_moved forest id parent t (index + 1) rest]
      cases resolveTree (id.child index) u spec with
      | error e => rfl
      | ok tree =>
        cases resolveChildren id parent t (index + 1) rest with
        | error e => rfl
        | ok others => exact congrArg Except.ok List.map_append.symm
end

theorem resolveGroup_moved (forest : Nat) (module : ModuleRef) (loaded : LoadedModule)
    (keywords : List Keyword) :
    resolveGroup module loaded (keywords.map (·.moved forest)) =
      (resolveGroup module loaded keywords).map (List.map (·.moved forest)) := by
  induction keywords with
  | nil => rfl
  | cons k rest ih =>
    rw [List.map_cons]
    unfold resolveGroup
    rw [Keyword.name, Keyword.spec_moved]
    cases loaded.resolve? k.name with
    | none => rfl
    | some t =>
      simp only [Keyword.id_moved, resolveTree_moved, ih]
      cases resolveTree k.id t k.spec with
      | error e => rfl
      | ok tree =>
        cases resolveGroup module loaded rest with
        | error e => rfl
        | ok others => exact congrArg Except.ok List.map_append.symm

theorem resolveModule_moved (forest : Nat) (answer : ModuleLoader) (keywords : List Keyword) :
    resolveModule answer (keywords.map (·.moved forest)) =
      (resolveModule answer keywords).map (List.map (·.moved forest)) := by
  cases keywords with
  | nil => rfl
  | cons k ks =>
    unfold resolveModule
    rw [List.map_cons]
    simp only [Keyword.spec_moved]
    cases answer k.spec.module with
    | error e => rfl
    | ok loaded => exact resolveGroup_moved forest k.spec.module loaded (k :: ks)

/-! ### Requests for one module -/

section OneModule

variable {module : ModuleRef} {keywords : List Keyword}

theorem toList_groupByModule {k : Keyword} {ks : List Keyword}
    (h : ∀ k' ∈ k :: ks, k'.spec.module = module) :
    (groupByModule (k :: ks)).toList = [(module.id, k :: ks)] := by
  -- more keywords of the module join its group
  have hfold (group rest : List Keyword) (groups : SortedMap ModuleId (List Keyword))
      (hgroups : groups.toList = [(module.id, group)]) (h : ∀ k ∈ rest, k.spec.module = module) :
      (rest.foldl (fun groups k => groups.insert k.spec.module.id
        ((groups.get? k.spec.module.id).getD [] ++ [k])) groups).toList =
          [(module.id, group ++ rest)] := by
    induction rest generalizing group groups with
    | nil => rw [List.foldl_nil, hgroups, List.append_nil]
    | cons k rest ih =>
      rw [List.forall_mem_cons] at h
      rw [List.foldl_cons, ih (group ++ [k]) _ ?_ h.2, List.append_assoc, List.singleton_append]
      rw [h.1]
      simp [SortedMap.insert, SortedMap.get?, hgroups, SortedMap.insertEntry]
  rw [List.forall_mem_cons] at h
  refine (hfold [k] ks _ ?_ h.2).trans (by rw [List.singleton_append])
  simp only [h.1]
  rfl

/-- A request for keywords of one module is about that module only. -/
theorem resolveRequest_of_module (h : ∀ k ∈ keywords, k.spec.module = module)
    (answer : ModuleLoader) : resolveRequest answer keywords =
      match keywords.find? (·.spec.nested) with
      | some k => .error (.nestedSpecAtTopLevel k.name)
      | none => resolveModule answer keywords := by
  unfold resolveRequest
  cases keywords.find? (·.spec.nested) with
  | some k => rfl
  | none =>
    cases keywords with
    | nil => rfl
    | cons k ks =>
      simp only [SortedMap.values, toList_groupByModule h, List.map_cons, List.map_nil,
        resolveModules_cons]
      cases resolveModule answer (k :: ks) with
      | error e => rfl
      | ok first => exact congrArg Except.ok (List.append_nil first)

theorem resolveRequest_moved (h : ∀ k ∈ keywords, k.spec.module = module) (forest : Nat)
    (answer : ModuleLoader) :
    resolveRequest answer (keywords.map (·.moved forest)) =
      (resolveRequest answer keywords).map (List.map (·.moved forest)) := by
  have hmoved : ∀ k ∈ keywords.map (·.moved forest), k.spec.module = module := by
    intro k hk
    obtain ⟨k', hk', rfl⟩ := List.mem_map.1 hk
    exact h k' hk'
  rw [resolveRequest_of_module h, resolveRequest_of_module hmoved, List.find?_map]
  simp only [Function.comp_def, Keyword.spec_moved]
  cases keywords.find? (·.spec.nested) with
  | some k => rfl
  | none => exact resolveModule_moved forest answer keywords

/-- Such a request depends on what its module stands for. -/
theorem resolveRequest_congr (h : ∀ k ∈ keywords, k.spec.module = module)
    {answer answer' : ModuleLoader}
    (hanswer : ∀ k ∈ keywords, answer k.spec.module = answer' k.spec.module) :
    resolveRequest answer keywords = resolveRequest answer' keywords := by
  rw [resolveRequest_of_module h, resolveRequest_of_module h]
  cases keywords with
  | nil => rfl
  | cons k ks =>
    simp only [resolveModule, hanswer k List.mem_cons_self]

end OneModule

/-! ## Attaching in two forests -/

/-- The keywords of `f` have the same code as those in the same places of another forest. -/
def Bindings.Agree (f : Forest) (forest : Nat) (b b' : Bindings) : Prop :=
  ∀ k, f.Holds k → b.runtime? k = b'.runtime? (k.moved forest)

theorem Forest.Holds.forest_eq {f : Forest} {k : Keyword} (h : f.Holds k) : k.id.forest = f.id := by
  induction h with
  | top listed =>
    obtain ⟨index, -, hplace⟩ := Forest.mem_keywords.1 listed
    rw [hplace]
  | nested _ listed ih =>
    obtain ⟨index, -, hplace⟩ := Keyword.mem_children.1 listed
    rw [hplace, KeywordId.child, ih]

/-- Attaching came to the same in both forests. -/
structure Commit.Agree (f : Forest) (forest : Nat) (c c' : Commit) : Prop where
  attached : c.attached = c'.attached
  skipped : c.skipped = c'.skipped
  bindings : c.bindings.Agree f forest c'.bindings

namespace Commit.Agree

variable {f : Forest} {forest : Nat} {c c' : Commit}

theorem add (h : c.Agree f forest c') {a : Attachment} {k : Keyword} (hk : f.Holds k)
    (hid : a.id = k.id) : (c.add a).Agree f forest (c'.add (a.moved forest)) := by
  have hfound : c.bindings.find? a.id = c'.bindings.find? (a.moved forest).id := by
    rw [Attachment.moved, hid]
    exact h.bindings k hk
  refine ⟨?_, ?_, fun k' hk' => ?_⟩
  · unfold Commit.add
    rw [← hfound]
    split
    · exact h.attached
    · exact congrArg (· + 1) h.attached
  · unfold Commit.add
    rw [← hfound]
    split
    · exact congrArg (· ++ [a.keyword]) h.skipped
    · exact h.skipped
  · have hplace : (a.moved forest).id = (k'.moved forest).id ↔ a.id = k'.id :=
      KeywordId.moved_inj (by rw [hid, hk.forest_eq, hk'.forest_eq])
    have hold := h.bindings k' hk'
    unfold Bindings.runtime? at *
    rw [find?_add, find?_add, hold]
    simp only [hplace]
    rfl

theorem foldl_add (h : c.Agree f forest c') {attachments : List Attachment}
    (hheld : ∀ a ∈ attachments, ∃ k, f.Holds k ∧ a.id = k.id) :
    (attachments.foldl Commit.add c).Agree f forest
      ((attachments.map (·.moved forest)).foldl Commit.add c') := by
  induction attachments generalizing c c' with
  | nil => exact h
  | cons a rest ih =>
    rw [List.forall_mem_cons] at hheld
    obtain ⟨⟨k, hk, hid⟩, hrest⟩ := hheld
    exact ih (h.add hk hid) hrest

end Commit.Agree

/-! ## One request -/

/-- What a request comes to: the specifications that it bound, how many keywords got their code and
which had theirs already. -/
def BindReport.outcome (p : BindReport) :
    Except BindingError (List KeywordSpec × Nat × List String) :=
  p.result.map fun c => (p.keywords.map (·.spec), c.attached, c.skipped)

namespace Binder

variable {b b' : Binder} {load : ModuleLoader} {bindings bindings' : Bindings}
  {keywords : List Keyword}

theorem result_bind (b : Binder) (bindings : Bindings) (load : ModuleLoader)
    (keywords : List Keyword) : (b.bind bindings load keywords).result =
      (resolveRequest (load.after b.cache.get?) keywords).map bindings.commit := by
  rw [← result_resolve]
  exact BindState.result_report (s := ⟨fun _ => b, bindings⟩) (r := ⟨0, load, keywords⟩)

theorem bindings_bind (b : Binder) (bindings : Bindings) (load : ModuleLoader)
    (keywords : List Keyword) : (b.bind bindings load keywords).bindings =
      match resolveRequest (load.after b.cache.get?) keywords with
      | .ok attachments => (bindings.commit attachments).bindings
      | .error _ => bindings := by
  rw [← result_resolve]
  unfold bind
  simp only
  split <;> simp only [*]

theorem cache_bind (b : Binder) (bindings : Bindings) (load : ModuleLoader)
    (keywords : List Keyword) :
    (b.bind bindings load keywords).binder.cache = (b.resolve load keywords).cache :=
  BindState.cache_report (s := ⟨fun _ => b, bindings⟩) (r := ⟨0, load, keywords⟩)

theorem keywords_bind (b : Binder) (bindings : Bindings) (load : ModuleLoader)
    (keywords : List Keyword) : (b.bind bindings load keywords).keywords = keywords := by
  unfold bind
  simp only
  split <;> rfl

/-- Attachments of a request stand in the trees that it names. -/
theorem exists_within_of_resolveRequest {attachments : List Attachment}
    (h : resolveRequest (load.after b.cache.get?) keywords = .ok attachments) :
    ∀ a ∈ attachments, ∃ root ∈ keywords, ∃ k, root.Within k ∧ a.id = k.id := by
  intro a ha
  rw [← result_resolve] at h
  obtain ⟨root, hroot, t, k, -, hresolves, hid⟩ := (covers_of_resolve h).2.sound a ha
  exact ⟨root, hroot, k, hresolves.within, hid⟩

/-- Binding keywords of other modules loads nothing for a module. -/
theorem get?_cache_bind_of_ne {id : ModuleId} (h : ∀ k ∈ keywords, k.spec.module.id ≠ id) :
    (b.bind bindings load keywords).binder.cache.get? id = b.cache.get? id := by
  have hnone : granted? (loadsOf load (b.resolve load keywords).calls) id = none := by
    rw [granted?_eq_none_iff]
    intro l hl hid
    obtain ⟨c, hc, rfl⟩ := List.mem_map.1 hl
    obtain ⟨k, hfirst, hmodule⟩ := (mem_calls_resolve.1 hc).2.2.first
    have hne := h k (List.mem_of_find?_eq_some hfirst)
    exact absurd ((congrArg ModuleRef.id hmodule).trans hid) hne
  rw [cache_bind, get?_cache_resolve, hnone]
  cases b.cache.get? id <;> rfl

/-- Binding keywords of other forests attaches nothing to a keyword. -/
theorem runtime?_bind_of_ne {k : Keyword} (h : ∀ root ∈ keywords, root.id.forest ≠ k.id.forest) :
    (b.bind bindings load keywords).bindings.runtime? k = bindings.runtime? k := by
  rw [bindings_bind]
  cases hresolved : resolveRequest (load.after b.cache.get?) keywords with
  | error e => rfl
  | ok attachments =>
    have hfound : attachments.find? (·.id == k.id) = none := by
      rw [List.find?_eq_none]
      intro a ha hid
      obtain ⟨root, hroot, k', hk', hid'⟩ := exists_within_of_resolveRequest hresolved a ha
      obtain ⟨below, hplace⟩ := hk'.place
      refine h root hroot ?_
      rw [← eq_of_beq hid, hid', hplace]
    rw [Bindings.runtime?_commit, hfound]
    cases bindings.runtime? k <;> rfl

/-- The keywords of a module in two forests come to the same where the module is loaded in both or
in neither. -/
theorem agree_bind (load : ModuleLoader) {f : Forest} {forest : Nat} {module : ModuleRef}
    (hmodule : ∀ k ∈ f.keywords, k.spec.module = module)
    (hloaded : ∀ k ∈ f.keywords, b.cache.get? k.spec.module.id = b'.cache.get? k.spec.module.id)
    (h : bindings.Agree f forest bindings') :
    (b.bind bindings load f.keywords).outcome =
        (b'.bind bindings' load (Forest.mk forest f.specs).keywords).outcome ∧
      (b.bind bindings load f.keywords).bindings.Agree f forest
        (b'.bind bindings' load (Forest.mk forest f.specs).keywords).bindings := by
  have hanswer : resolveRequest (load.after b'.cache.get?) f.keywords =
      resolveRequest (load.after b.cache.get?) f.keywords :=
    resolveRequest_congr hmodule fun k hk => by
      unfold ModuleLoader.after
      rw [hloaded k hk]
  unfold BindReport.outcome
  rw [result_bind, result_bind, bindings_bind, bindings_bind, keywords_bind, keywords_bind,
    Forest.map_spec_keywords, Forest.map_spec_keywords, f.keywords_moved forest,
    resolveRequest_moved hmodule, hanswer]
  cases hresolved : resolveRequest (load.after b.cache.get?) f.keywords with
  | error e => exact ⟨rfl, h⟩
  | ok attachments =>
    have hheld : ∀ a ∈ attachments, ∃ k, f.Holds k ∧ a.id = k.id := by
      intro a ha
      obtain ⟨root, hroot, k, hk, hid⟩ := exists_within_of_resolveRequest hresolved a ha
      exact ⟨k, Forest.holds_iff.2 ⟨root, hroot, hk⟩, hid⟩
    have hstart : Commit.Agree f forest ⟨bindings, 0, []⟩ ⟨bindings', 0, []⟩ := ⟨rfl, rfl, h⟩
    have hcommit := hstart.foldl_add hheld
    refine ⟨?_, hcommit.bindings⟩
    simp only [Except.map]
    rw [Bindings.commit, Bindings.commit, hcommit.attached, hcommit.skipped]

end Binder

/-! ## All modules of a registry -/

/-- Modules that have neither a loaded module nor a forest in common. -/
def RegisteredModule.Apart (e e' : RegisteredModule) : Prop :=
  ∀ k ∈ e.keywords, ∀ k' ∈ e'.keywords,
    k.spec.module.id ≠ k'.spec.module.id ∧ k.id.forest ≠ k'.id.forest

theorem RegisteredModule.Apart.symm {e e' : RegisteredModule} (h : e.Apart e') : e'.Apart e :=
  fun k hk k' hk' => ⟨(h k' hk' k hk).1.symm, (h k' hk' k hk).2.symm⟩

namespace Registry

variable {load : ModuleLoader} {b : Binder} {s : Bindings} {l : List RegisteredModule}
  {e : RegisteredModule}

/-- What is reported on a module. -/
def BindAllReport.outcome? (a : BindAllReport) (id : ModuleId) :
    Option (Except BindingError (List KeywordSpec × Nat × List String)) :=
  (a.reports.find? (·.1.id == id)).map (·.2.outcome)

theorem bindModules_append (load : ModuleLoader) (b : Binder) (s : Bindings)
    (l l' : List RegisteredModule) :
    let first := bindModules load b s l
    let others := bindModules load first.binder first.bindings l'
    bindModules load b s (l ++ l') =
      ⟨others.binder, others.bindings, first.reports ++ others.reports⟩ := by
  induction l generalizing b s with
  | nil => rfl
  | cons e rest ih => simp only [List.cons_append, bindModules, ih]

theorem map_fst_reports (load : ModuleLoader) (b : Binder) (s : Bindings)
    (l : List RegisteredModule) :
    (bindModules load b s l).reports.map (·.1) = l.map (·.module) := by
  induction l generalizing b s with
  | nil => rfl
  | cons e rest ih => exact congrArg (e.module :: ·) (ih _ _)

/-- Binding other modules changes nothing of what is loaded for a module and attached to its
keywords. -/
theorem bindModules_of_apart (load : ModuleLoader) (h : ∀ e' ∈ l, e'.Apart e) :
    (∀ k ∈ e.keywords,
      (bindModules load b s l).binder.cache.get? k.spec.module.id = b.cache.get? k.spec.module.id) ∧
      ∀ root ∈ e.keywords, ∀ k, root.Within k →
        (bindModules load b s l).bindings.runtime? k = s.runtime? k := by
  induction l generalizing b s with
  | nil => exact ⟨fun _ _ => rfl, fun _ _ _ _ => rfl⟩
  | cons e' rest ih =>
    rw [List.forall_mem_cons] at h
    obtain ⟨hloaded, hattached⟩ := ih h.2
    refine ⟨fun k hk => (hloaded k hk).trans ?_, fun root hroot k hk =>
      (hattached root hroot k hk).trans ?_⟩
    · exact Binder.get?_cache_bind_of_ne fun k' hk' => (h.1 k' hk' k hk).1
    · refine Binder.runtime?_bind_of_ne fun k' hk' => ?_
      obtain ⟨below, hplace⟩ := hk.place
      rw [hplace]
      exact (h.1 k' hk' root hroot).2

/-- Each of some modules that are apart is bound as it would be before all of them, and what is
bound later leaves it so. -/
theorem exists_bind (hapart : l.Pairwise RegisteredModule.Apart) (he : e ∈ l) (load : ModuleLoader)
    (b : Binder) (s : Bindings) : ∃ (b' : Binder) (s' : Bindings),
      (∀ k ∈ e.keywords, b'.cache.get? k.spec.module.id = b.cache.get? k.spec.module.id) ∧
      (∀ root ∈ e.keywords, ∀ k, root.Within k → s'.runtime? k = s.runtime? k) ∧
      (e.module, b'.bind s' load e.keywords) ∈ (bindModules load b s l).reports ∧
      ∀ root ∈ e.keywords, ∀ k, root.Within k → (bindModules load b s l).bindings.runtime? k =
        (b'.bind s' load e.keywords).bindings.runtime? k := by
  obtain ⟨before, after, rfl⟩ := List.append_of_mem he
  obtain ⟨-, hafter, hbefore⟩ := List.pairwise_append.1 hapart
  let first := bindModules load b s before
  let own := first.binder.bind first.bindings load e.keywords
  obtain ⟨hloaded, hattached⟩ := bindModules_of_apart load (b := b) (s := s)
    fun e' he' => hbefore e' he' e List.mem_cons_self
  obtain ⟨-, hlater⟩ := bindModules_of_apart load (b := own.binder) (s := own.bindings)
    fun e' he' => ((List.pairwise_cons.1 hafter).1 e' he').symm
  refine ⟨first.binder, first.bindings, hloaded, hattached, ?_, fun root hroot k hk => ?_⟩
  · rw [bindModules_append, bindModules]
    exact List.mem_append_right _ List.mem_cons_self
  · rw [bindModules_append, bindModules]
    exact hlater root hroot k hk

end Registry

/-! ### Registered modules -/

/-- Each forest that the calls make has the number of its module. -/
def Discoveries.Number (ms : Discoveries) (calls : List RegistryCall) : Prop :=
  ∀ c ∈ calls, ∀ forest m, .register forest m ∈ c.steps → ms forest = m

theorem Keyword.children_moved (k : Keyword) (forest : Nat) :
    (k.moved forest).children = k.children.map (·.moved forest) :=
  List.ext_getElem (by simp [children, moved])
    (by simp [children, moved, KeywordId.moved, KeywordId.child])

theorem Forest.Holds.moved {f : Forest} {k : Keyword} (h : f.Holds k) (forest : Nat) :
    (Forest.mk forest f.specs).Holds (k.moved forest) := by
  induction h with
  | top listed =>
    refine .top ?_
    rw [f.keywords_moved forest]
    exact List.mem_map_of_mem listed
  | nested _ listed ih =>
    refine .nested ih ?_
    rw [Keyword.children_moved]
    exact List.mem_map_of_mem listed

namespace Registry

variable {ms ms' : Discoveries} {calls calls' : List RegistryCall}

/-- The keywords of a registered module name that module and stand in a forest of it. -/
theorem module_of_registers (hms : ms.Number calls) {e : RegisteredModule}
    (h : Registers (calls.flatMap (·.steps)) e) {k : Keyword} (hk : k ∈ e.keywords) :
    k.spec.module = e.module ∧ (ms k.id.forest).module = e.module := by
  obtain ⟨before, forest, m, after, hsteps, haccepts, hmodule, -⟩ := h
  obtain ⟨specs, hspecs, hkeywords⟩ := haccepts.discovered
  obtain ⟨c, hc, hstep⟩ := List.mem_flatMap.1 (hsteps ▸ List.mem_append_right before
    List.mem_cons_self)
  rw [hkeywords] at hk
  obtain ⟨levels, isNested, t, -, hdeclared⟩ := declared_of_holds hspecs (.top hk)
  rw [hmodule, (Forest.Holds.top hk).forest_eq, hms c hc forest m hstep, ← hdeclared,
    TypeRecord.declared_eq]
  exact ⟨rfl, rfl⟩

theorem nodup_ids (calls : List RegistryCall) :
    ((calls.foldl call empty).modules.values.map (·.module.id)).Nodup := by
  have hr : (calls.foldl call empty).Consistent := by
    rw [foldl_call]
    exact Consistent.empty.run _
  rw [hr.map_id_values]
  exact SortedMap.nodup_keys _

/-- Registered modules are apart from each other. -/
theorem pairwise_apart (hms : ms.Number calls) :
    (calls.foldl call empty).modules.values.Pairwise RegisteredModule.Apart := by
  have hregisters : ∀ e ∈ (calls.foldl call empty).modules.values,
      Registers (calls.flatMap (·.steps)) e := by
    intro e he
    rw [SortedMap.mem_values, foldl_call] at he
    obtain ⟨id, hid⟩ := he
    exact (get?_modules_run.1 hid).1
  refine (List.pairwise_map.1 (nodup_ids calls)).imp_of_mem fun {e e'} he he' hne k hk k' hk' => ?_
  obtain ⟨hmodule, hforest⟩ := module_of_registers hms (hregisters e he) hk
  obtain ⟨hmodule', hforest'⟩ := module_of_registers hms (hregisters e' he') hk'
  refine ⟨?_, fun heq => hne ?_⟩
  · rwa [hmodule, hmodule']
  · rw [← hforest, ← hforest', heq]

/-- The report on a module is found by its identity. -/
theorem outcome?_of_mem (hids : (l.map (·.module.id)).Nodup) {module : ModuleRef} {p : BindReport}
    (hp : (module, p) ∈ (bindModules load b s l).reports) :
    (bindModules load b s l).outcome? module.id = some p.outcome := by
  have hreports : ((bindModules load b s l).reports.map (·.1.id)).Nodup := by
    have hfst := congrArg (List.map ModuleRef.id) (map_fst_reports load b s l)
    rw [List.map_map, List.map_map] at hfst
    exact hfst ▸ hids
  have hfound : (bindModules load b s l).reports.find? (·.1.id == module.id) =
      some (module, p) := by
    refine (find?_eq_some_iff_of_unique fun q hq q' hq' hid hid' => ?_).2 ⟨hp, by simp⟩
    rw [beq_iff_eq] at hid hid'
    exact List.inj_on_of_nodup_map hreports hq hq' (hid.trans hid'.symm)
  rw [BindAllReport.outcome?, hfound, Option.map_some]

/-- A registered module is bound apart from what else is registered. -/
theorem exists_outcome (hms : ms.Number calls) {module : ModuleRef} {f : Forest}
    (he : ⟨module, f.keywords⟩ ∈ (calls.foldl call empty).modules.values) (load : ModuleLoader)
    (b : Binder) (s : Bindings) : ∃ (b' : Binder) (s' : Bindings),
      (∀ k ∈ f.keywords, b'.cache.get? k.spec.module.id = b.cache.get? k.spec.module.id) ∧
      (∀ k, f.Holds k → s'.runtime? k = s.runtime? k) ∧
      ((calls.foldl call empty).bindAll load b s).outcome? module.id =
        some (b'.bind s' load f.keywords).outcome ∧
      ∀ k, f.Holds k → ((calls.foldl call empty).bindAll load b s).bindings.runtime? k =
        (b'.bind s' load f.keywords).bindings.runtime? k := by
  obtain ⟨b', s', hloaded, hattached, hreport, hafter⟩ :=
    exists_bind (pairwise_apart hms) he load b s
  refine ⟨b', s', hloaded, fun k hk => ?_, outcome?_of_mem (nodup_ids calls) hreport,
    fun k hk => ?_⟩
  · obtain ⟨root, hroot, hk⟩ := Forest.holds_iff.1 hk
    exact hattached root hroot k hk
  · obtain ⟨root, hroot, hk⟩ := Forest.holds_iff.1 hk
    exact hafter root hroot k hk

/-- Two registries with one module in common, each with its keywords in a forest of its own, bind it
alike. -/
theorem agree_bindAll (hms : ms.Number calls) (hms' : ms'.Number calls') {module : ModuleRef}
    {f : Forest} {forest : Nat}
    (he : ⟨module, f.keywords⟩ ∈ (calls.foldl call empty).modules.values)
    (he' : ⟨module, (Forest.mk forest f.specs).keywords⟩ ∈
      (calls'.foldl call empty).modules.values)
    (load : ModuleLoader) {b b' : Binder}
    (hloaded : b.cache.get? module.id = b'.cache.get? module.id) {s s' : Bindings}
    (hattached : s.Agree f forest s') :
    let all := (calls.foldl call empty).bindAll load b s
    let all' := (calls'.foldl call empty).bindAll load b' s'
    (∃ outcome, all.outcome? module.id = some outcome ∧ all'.outcome? module.id = some outcome) ∧
      all.bindings.Agree f forest all'.bindings := by
  intro all all'
  have hmodule : ∀ k ∈ f.keywords, k.spec.module = module := by
    intro k hk
    rw [SortedMap.mem_values, foldl_call] at he
    obtain ⟨id, hid⟩ := he
    exact (module_of_registers hms (get?_modules_run.1 hid).1 hk).1
  obtain ⟨b₁, s₁, hloaded₁, hattached₁, houtcome₁, hafter₁⟩ := exists_outcome hms he load b s
  obtain ⟨b₂, s₂, hloaded₂, hattached₂, houtcome₂, hafter₂⟩ := exists_outcome hms' he' load b' s'
  have hmiddle : ∀ k ∈ f.keywords,
      b₁.cache.get? k.spec.module.id = b₂.cache.get? k.spec.module.id := by
    intro k hk
    have hmoved : k.moved forest ∈ (Forest.mk forest f.specs).keywords := by
      rw [f.keywords_moved forest]
      exact List.mem_map_of_mem hk
    have hother := hloaded₂ (k.moved forest) hmoved
    rw [Keyword.spec_moved] at hother
    rw [hloaded₁ k hk, hother, hmodule k hk, hloaded]
  have hstart : s₁.Agree f forest s₂ := by
    intro k hk
    rw [hattached₁ k hk, hattached k hk, hattached₂ _ (hk.moved forest)]
  obtain ⟨houtcome, hagree⟩ := Binder.agree_bind load hmodule hmiddle hstart
  refine ⟨⟨_, houtcome₁, houtcome ▸ houtcome₂⟩, fun k hk => ?_⟩
  rw [hafter₁ k hk, hagree k hk, hafter₂ _ (hk.moved forest)]

end Registry

/-! ### A sample -/

namespace Letter

/-- A module that is not there to be loaded. -/
def parcels : ModuleMetadata :=
  ⟨⟨⟨4⟩, "Parcels", "1.0"⟩, [TypeRecord.mk "Parcel" (some Marker.baseType) .classType
    [Marker.ofKeyword .command .optionalMany] [] [] []]⟩

/-- A store of letters and parcels. -/
def store : MetadataStore := (MetadataStore.empty.write metadata).write parcels

theorem modules_store :
    store.modules = [Store.encodeModule metadata, Store.encodeModule parcels] := by
  with_unfolding_all rfl

theorem list_store : store.list = .ok [metadata.module, parcels.module] := by
  have hsorted : store.rows = [Store.encodeModule metadata, Store.encodeModule parcels] := by
    rw [MetadataStore.rows, modules_store, List.mergeSort_of_pairwise (by decide +kernel)]
  rw [MetadataStore.list, hsorted]
  with_unfolding_all rfl

theorem canonical_store : store.Canonical := by
  intro row hrow
  rw [modules_store] at hrow
  obtain rfl | hrow := List.mem_cons.1 hrow
  · exact ⟨⟨3⟩, rfl⟩
  · obtain rfl := List.mem_singleton.1 hrow
    exact ⟨⟨4⟩, rfl⟩

end Letter

namespace Registry

/-- Failing modules do not affect the others. If modules that a registry does not accept from a
store are deleted there, the others get the same reports and the registry comes to hold the same.
What binding all registered modules reports on one of them, and the code that its keywords have
afterwards, are the same whichever others are registered. -/
theorem isolated :
    (∀ (r : Registry) (s : MetadataStore) (forest forest' : Nat) (full : StoreRegistration),
      r.registerStore forest s = .ok full → ∀ ids : List ModuleId,
        (∀ p ∈ full.reports, p.module.id ∈ ids → ∃ e, p.result = .error e) →
          ∃ rest, r.registerStore forest' (s.deleteAll ids) = .ok rest ∧
            full.registry.Alike rest.registry ∧
            reportsOutside ids rest.reports = reportsOutside ids full.reports ∧
            (s.Canonical → rest.reports = reportsOutside ids full.reports)) ∧
      ∀ (calls calls' : List RegistryCall) (ms ms' : Discoveries), ms.Number calls →
        ms'.Number calls' → ∀ (module : ModuleRef) (f : Forest) (forest : Nat),
          ⟨module, f.keywords⟩ ∈ (calls.foldl call empty).modules.values →
          ⟨module, (Forest.mk forest f.specs).keywords⟩ ∈
            (calls'.foldl call empty).modules.values →
          ∀ (load : ModuleLoader) (b b' : Binder),
            b.cache.get? module.id = b'.cache.get? module.id →
            ∀ s s' : Bindings, s.Agree f forest s' →
              let all := (calls.foldl call empty).bindAll load b s
              let all' := (calls'.foldl call empty).bindAll load b' s'
              (∃ outcome, all.outcome? module.id = some outcome ∧
                all'.outcome? module.id = some outcome) ∧
                all.bindings.Agree f forest all'.bindings := by
  constructor
  · intro r s forest forest' full hfull ids hfail
    exact alike_registerStore forest' hfull hfail
  · intro calls calls' ms ms' hms hms' module f forest he he' load b b' hloaded s s' hattached
    exact agree_bindAll hms hms' he he' load hloaded hattached

/-- Letters that are registered already are not accepted again, and parcels that cannot be loaded
are not bound. Either is without effect on the other module. -/
theorem isolated_letter :
    let calls := [RegistryCall.step (.register 0 Letter.metadata)]
    let calls' := [RegistryCall.step (.register 0 Letter.parcels),
      .step (.register 1 Letter.metadata)]
    let load : ModuleLoader := fun m =>
      if m.id = ⟨3⟩ then .ok Letter.letters else .error (.moduleLoad m.text "not there")
    (∃ rest, (calls.foldl call empty).registerStore 5 (Letter.store.deleteAll [⟨3⟩]) = .ok rest ∧
      rest.reports.map (·.module) = [Letter.parcels.module]) ∧
      ∃ outcome, ((calls.foldl call empty).bindAll load .empty .empty).outcome? ⟨3⟩ = some outcome ∧
        ((calls'.foldl call empty).bindAll load .empty .empty).outcome? ⟨3⟩ = some outcome := by
  intro calls calls' load
  obtain ⟨hstore, hbind⟩ := isolated
  let full := registerModules Letter.store (calls.foldl call empty) 1
    [Letter.metadata.module, Letter.parcels.module]
  have hfull : (calls.foldl call empty).registerStore 1 Letter.store = .ok full := by
    rw [registerStore, Letter.list_store]
    rfl
  have hfailed : (full.reports.all fun p => p.module.id != ⟨3⟩ || !p.result.isOk) = true := by
    decide +kernel
  have hfail : ∀ p ∈ full.reports, p.module.id ∈ [(⟨3⟩ : ModuleId)] → ∃ e, p.result = .error e := by
    intro p hp hid
    have hp := List.all_eq_true.1 hfailed p hp
    rw [List.mem_singleton.1 hid] at hp
    cases hresult : p.result with
    | error e => exact ⟨e, rfl⟩
    | ok count => simp [hresult, Except.isOk, Except.toBool] at hp
  refine ⟨?_, ?_⟩
  · obtain ⟨rest, hrest, -, -, hreports⟩ := hstore _ _ 1 5 full hfull [⟨3⟩] hfail
    refine ⟨rest, hrest, ?_⟩
    rw [hreports Letter.canonical_store]
    decide +kernel
  · have hms : Discoveries.Number (fun _ => Letter.metadata) calls := by
      simp [Discoveries.Number, calls, RegistryCall.steps]
    have hms' : Discoveries.Number (fun n => if n = 0 then Letter.parcels else Letter.metadata)
        calls' := by
      simp [Discoveries.Number, calls', RegistryCall.steps]
    let f : Forest := ⟨0, [Letter.letter.spec]⟩
    have he : ⟨Letter.metadata.module, f.keywords⟩ ∈ (calls.foldl call empty).modules.values := by
      refine List.mem_of_getElem? (i := 0) ?_
      with_unfolding_all rfl
    have he' : ⟨Letter.metadata.module, (Forest.mk 1 f.specs).keywords⟩ ∈
        (calls'.foldl call empty).modules.values := by
      refine List.mem_of_getElem? (i := 0) ?_
      with_unfolding_all rfl
    exact (hbind calls calls' _ _ hms hms' _ f 1 he he' load .empty .empty rfl .empty .empty
      fun _ _ => rfl).1

end Registry

end KeywordEngine
