import KeywordEngine.Proofs.BindingHistory

/-!
# Loads over a history of requests

A binder asks a loader for a module until one gives it, and then never again: every later request
takes its types from that same module. What was refused is asked for again, and what was loaded
stays loaded if the request fails after all.

* `granted?`: the module that earlier loads gave. It is all that a binder remembers
  (`BindState.get?_cache_serveAll`).
* `resolveRequest`: a request where it is known what each module reference stands for. A request
  resolves that way, module by module (`Binder.result_resolve`).
* `Asks`: the modules that such a resolution comes to. They are asked for if they are not loaded yet
  (`Binder.mem_calls_resolve`).
* `BindState.loadsOnce_serveAll`: the loads of a binder over any history.
-/

namespace KeywordEngine

/-! ## Loads -/

/-- A module that a loader was asked for and what it gave. -/
structure Load where
  module : ModuleRef
  answer : Except BindingError LoadedModule

/-- The first module of that identity that loads gave. -/
def granted? (loads : List Load) (id : ModuleId) : Option LoadedModule :=
  loads.findSome? fun l => if l.module.id = id then l.answer.toOption else none

theorem granted?_append (loads others : List Load) (id : ModuleId) :
    granted? (loads ++ others) id = (granted? loads id <|> granted? others id) := by
  unfold granted?
  rw [List.findSome?_append, Option.orElse_eq_orElse, Option.orElse_eq_or]

/-- Loads that gave no module of that identity were refused. -/
theorem granted?_eq_none_iff {loads : List Load} {id : ModuleId} : granted? loads id = none ↔
    ∀ l ∈ loads, l.module.id = id → ∃ e, l.answer = .error e := by
  unfold granted?
  rw [List.findSome?_eq_none_iff]
  refine forall₂_congr fun l _ => ?_
  cases l.answer <;> simp [Except.toOption]

/-- A loader's answers where some modules are loaded already. -/
def ModuleLoader.after (load : ModuleLoader) (loaded? : ModuleId → Option LoadedModule) :
    ModuleLoader := fun module =>
  match loaded? module.id with
  | some loaded => .ok loaded
  | none => load module

/-- A request to a loader. -/
def LoadCall.of (load : ModuleLoader) (module : ModuleRef) : LoadCall where
  module := module
  refusal :=
    match load module with
    | .ok _ => none
    | .error e => some e

/-- What calls of a loader gave. -/
def loadsOf (load : ModuleLoader) (calls : List LoadCall) : List Load :=
  calls.map fun c => ⟨c.module, load c.module⟩

namespace ModuleCache

variable (cache : ModuleCache) (load : ModuleLoader) (module : ModuleRef)

theorem result_getOrLoad : (cache.getOrLoad load module).result = load.after cache.get? module := by
  unfold getOrLoad ModuleLoader.after
  cases cache.get? module.id with
  | some loaded => rfl
  | none => cases load module <;> rfl

theorem calls_getOrLoad : (cache.getOrLoad load module).calls =
    if (cache.get? module.id).isSome then [] else [.of load module] := by
  unfold getOrLoad LoadCall.of
  cases cache.get? module.id with
  | some loaded => rfl
  | none => cases load module <;> rfl

/-- A cache gains what the loader gives. -/
theorem get?_cache_getOrLoad (id : ModuleId) :
    (cache.getOrLoad load module).cache.get? id =
      (cache.get? id <|> granted? (loadsOf load (cache.getOrLoad load module).calls) id) := by
  unfold getOrLoad
  cases hget : cache.get? module.id with
  | some loaded => simp [loadsOf, granted?]
  | none =>
    cases hload : load module with
    | error e =>
      have hnone : granted? (loadsOf load [⟨module, some e⟩]) id = none := by
        simp [granted?, loadsOf, hload, Except.toOption]
      rw [hnone]
      cases cache.get? id <;> rfl
    | ok loaded =>
      show (cache.insert module.id loaded).get? id = _
      rw [SortedMap.get?_insert]
      by_cases hid : module.id = id
      · subst hid
        simp [granted?, loadsOf, hload, hget, Except.toOption]
      · simp [granted?, loadsOf, hid]

theorem get?_cache_getOrLoad_of_ne {id : ModuleId} (h : module.id ≠ id) :
    (cache.getOrLoad load module).cache.get? id = cache.get? id := by
  rw [get?_cache_getOrLoad, calls_getOrLoad]
  split
  · simp [loadsOf, granted?]
  · simp [loadsOf, granted?, LoadCall.of, h]

theorem mem_calls_getOrLoad {c : LoadCall} : c ∈ (cache.getOrLoad load module).calls ↔
    c = .of load module ∧ cache.get? module.id = none := by
  rw [calls_getOrLoad]
  cases cache.get? module.id <;> simp

end ModuleCache

/-! ## Resolution without loading -/

/-- The attachments of keywords of one module, which stands under the reference that the first of
them gives. -/
def resolveModule (answer : ModuleLoader) : List Keyword → Except BindingError (List Attachment)
  | [] => .ok []
  | k :: ks => (answer k.spec.module).bind fun loaded =>
    resolveGroup k.spec.module loaded (k :: ks)

/-- The attachments of groups of keywords, each of one module. -/
def resolveModules (answer : ModuleLoader) (groups : List (List Keyword)) :
    Except BindingError (List Attachment) :=
  (groups.mapM (resolveModule answer)).map List.flatten

/-- The attachments of a request, where `answer` tells what module references stand for. -/
def resolveRequest (answer : ModuleLoader) (keywords : List Keyword) :
    Except BindingError (List Attachment) :=
  match keywords.find? (·.spec.nested) with
  | some k => .error (.nestedSpecAtTopLevel k.name)
  | none => resolveModules answer (groupByModule keywords).values

theorem resolveModules_cons (answer : ModuleLoader) (group : List Keyword)
    (groups : List (List Keyword)) :
    resolveModules answer (group :: groups) = (resolveModule answer group).bind fun first =>
      (resolveModules answer groups).map (first ++ ·) := by
  unfold resolveModules
  rw [List.mapM_cons]
  cases resolveModule answer group with
  | error e => rfl
  | ok first => cases groups.mapM (resolveModule answer) <;> rfl

/-- A resolution comes to a module: all keywords are at the top, the first of that module gives the
reference, and the keywords of each module before it resolve. -/
structure Asks (answer : ModuleLoader) (keywords : List Keyword) (module : ModuleRef) : Prop where
  top : ∀ k ∈ keywords, k.spec.nested = false
  first : ∃ k, keywords.find? (·.spec.module.id == module.id) = some k ∧ k.spec.module = module
  before : ∀ id, compare id module.id = .lt →
    ∃ attachments, resolveModule answer (keywords.filter (·.spec.module.id == id)) = .ok attachments

/-! ### Groups -/

/-- What is loaded for one module does not matter for another. -/
theorem ModuleLoader.after_getOrLoad {load : ModuleLoader} {cache : ModuleCache}
    {module other : ModuleRef} (h : module.id ≠ other.id) :
    load.after (cache.getOrLoad load module).cache.get? other = load.after cache.get? other := by
  unfold after
  rw [cache.get?_cache_getOrLoad_of_ne load module h]

section Groups

variable {answer load : ModuleLoader} {cache : ModuleCache}
  {groups : List (ModuleId × List Keyword)}

/-- Groups in order that hold the keywords of their modules. -/
structure Grouped (groups : List (ModuleId × List Keyword)) : Prop where
  increasing : groups.Pairwise fun a b => compare a.1 b.1 = .lt
  own : ∀ g ∈ groups, ∀ k ∈ g.2, k.spec.module.id = g.1

namespace Grouped

theorem tail {g : ModuleId × List Keyword} (h : Grouped (g :: groups)) : Grouped groups where
  increasing := (List.pairwise_cons.1 h.increasing).2
  own := (List.forall_mem_cons.1 h.own).2

theorem lt {g other : ModuleId × List Keyword} (h : Grouped (g :: groups))
    (hother : other ∈ groups) : compare g.1 other.1 = .lt :=
  (List.pairwise_cons.1 h.increasing).1 other hother

theorem groupByModule (keywords : List Keyword) : Grouped (groupByModule keywords).toList where
  increasing := (KeywordEngine.groupByModule keywords).increasing
  own := by
    rintro ⟨id, group⟩ hgroup k hk
    rw [SortedMap.mem_toList_iff] at hgroup
    rw [get?_groupByModule hgroup] at hk
    simpa using (List.mem_filter.1 hk).2

theorem id_ne {g other : ModuleId × List Keyword} (h : Grouped (g :: groups))
    (hother : other ∈ groups) : g.1 ≠ other.1 := by
  intro hid
  have hlt := h.lt hother
  rw [hid] at hlt
  simp at hlt

/-- Loading the module of one group does not matter for a later one. -/
theorem resolveModule_getOrLoad {id : ModuleId} {k : Keyword} {ks : List Keyword}
    (h : Grouped ((id, k :: ks) :: groups)) {g : ModuleId × List Keyword} (hg : g ∈ groups) :
    resolveModule (load.after (cache.getOrLoad load k.spec.module).cache.get?) g.2 =
      resolveModule (load.after cache.get?) g.2 := by
  obtain ⟨id', group⟩ := g
  cases group with
  | nil => rfl
  | cons k' ks' =>
    have hid : k.spec.module.id = id := h.own (id, k :: ks) (by simp) k (by simp)
    have hid' : k'.spec.module.id = id' := h.tail.own (id', k' :: ks') hg k' (by simp)
    have hne : k.spec.module.id ≠ k'.spec.module.id := by
      rw [hid, hid']
      exact h.id_ne hg
    show Except.bind _ _ = Except.bind _ _
    rw [ModuleLoader.after_getOrLoad hne]

end Grouped

/-- A resolution comes to a group: those before it resolve. -/
def ComesTo (answer : ModuleLoader) (groups : List (ModuleId × List Keyword))
    (g : ModuleId × List Keyword) : Prop :=
  ∀ b ∈ groups, compare b.1 g.1 = .lt → ∃ first, resolveModule answer b.2 = .ok first

theorem Grouped.comesTo_head {g : ModuleId × List Keyword} (h : Grouped (g :: groups)) :
    ComesTo answer (g :: groups) g := by
  intro b hb hlt
  exfalso
  obtain rfl | hb := List.mem_cons.1 hb
  · simp at hlt
  · have hself := Std.TransCmp.lt_trans hlt (h.lt hb)
    simp at hself

theorem Grouped.comesTo_tail {g other : ModuleId × List Keyword} (h : Grouped (g :: groups))
    (hother : other ∈ groups) : ComesTo answer (g :: groups) other ↔
      (∃ first, resolveModule answer g.2 = .ok first) ∧ ComesTo answer groups other := by
  unfold ComesTo
  rw [List.forall_mem_cons]
  exact and_congr_left' (imp_iff_right (h.lt hother))

/-- `answer` tells what the modules of groups stand for before any of them is loaded. -/
def Foretells (answer load : ModuleLoader) (cache : ModuleCache)
    (groups : List (ModuleId × List Keyword)) : Prop :=
  ∀ g ∈ groups, resolveModule answer g.2 = resolveModule (load.after cache.get?) g.2

theorem Foretells.tail {id : ModuleId} {k : Keyword} {ks : List Keyword}
    (h : Foretells answer load cache ((id, k :: ks) :: groups))
    (hgrouped : Grouped ((id, k :: ks) :: groups)) :
    Foretells answer load (cache.getOrLoad load k.spec.module).cache groups := by
  intro g hg
  rw [hgrouped.resolveModule_getOrLoad hg]
  exact h g (List.mem_cons_of_mem _ hg)

theorem Foretells.head {id : ModuleId} {k : Keyword} {ks : List Keyword}
    (h : Foretells answer load cache ((id, k :: ks) :: groups)) :
    (cache.getOrLoad load k.spec.module).result.bind
      (fun loaded => resolveGroup k.spec.module loaded (k :: ks)) =
        resolveModule answer (k :: ks) := by
  rw [h (id, k :: ks) (by simp), cache.result_getOrLoad]
  rfl

/-- Groups resolve as if it were known from the start what their modules stand for. -/
theorem result_resolveGroups (hgrouped : Grouped groups) (h : Foretells answer load cache groups) :
    (resolveGroups load cache (groups.map (·.2))).result =
      resolveModules answer (groups.map (·.2)) := by
  induction groups generalizing cache with
  | nil => rfl
  | cons g rest ih =>
    obtain ⟨id, group⟩ := g
    rw [List.map_cons, resolveModules_cons]
    cases group with
    | nil =>
      unfold resolveGroups
      rw [ih hgrouped.tail fun g hg => h g (List.mem_cons_of_mem _ hg)]
      cases resolveModules answer (rest.map (·.2)) <;> rfl
    | cons k ks =>
      unfold resolveGroups
      simp only [h.head]
      cases resolveModule answer (k :: ks) with
      | error e => rfl
      | ok first => exact congrArg (Except.map (first ++ ·)) (ih hgrouped.tail (h.tail hgrouped))

/-- A module is asked for if it is not loaded yet and the resolution comes to its group. -/
theorem mem_calls_resolveGroups (hgrouped : Grouped groups)
    (h : Foretells answer load cache groups) {c : LoadCall} :
    c ∈ (resolveGroups load cache (groups.map (·.2))).calls ↔
      ∃ g ∈ groups, (∃ k ks, g.2 = k :: ks ∧ c = .of load k.spec.module) ∧
        cache.get? g.1 = none ∧ ComesTo answer groups g := by
  induction groups generalizing cache with
  | nil => simp [resolveGroups]
  | cons g rest ih =>
    obtain ⟨id, group⟩ := g
    rw [List.exists_mem_cons_iff]
    cases group with
    | nil =>
      refine (ih hgrouped.tail fun g hg => h g (List.mem_cons_of_mem _ hg)).trans ?_
      have hhead : ∃ first, resolveModule answer [] = .ok first := ⟨[], rfl⟩
      constructor
      · rintro ⟨g, hg, hfirst, hget, hreach⟩
        exact .inr ⟨g, hg, hfirst, hget, (hgrouped.comesTo_tail hg).2 ⟨hhead, hreach⟩⟩
      · rintro (⟨⟨k, ks, hks, -⟩, -⟩ | ⟨g, hg, hfirst, hget, hreach⟩)
        · cases hks
        · exact ⟨g, hg, hfirst, hget, ((hgrouped.comesTo_tail hg).1 hreach).2⟩
    | cons k ks =>
      have hid : k.spec.module.id = id := hgrouped.own (id, k :: ks) (by simp) k (by simp)
      have hhead : c ∈ (cache.getOrLoad load k.spec.module).calls ↔
          (∃ k' ks', k :: ks = k' :: ks' ∧ c = .of load k'.spec.module) ∧ cache.get? id = none ∧
            ComesTo answer ((id, k :: ks) :: rest) (id, k :: ks) := by
        rw [cache.mem_calls_getOrLoad, hid]
        simp [hgrouped.comesTo_head]
      have hcache (g) (hg : g ∈ rest) :
          (cache.getOrLoad load k.spec.module).cache.get? g.1 = cache.get? g.1 := by
        refine cache.get?_cache_getOrLoad_of_ne load k.spec.module ?_
        rw [hid]
        exact hgrouped.id_ne hg
      rw [List.map_cons]
      unfold resolveGroups
      simp only [h.head]
      cases hfirst : resolveModule answer (k :: ks) with
      | error e =>
        refine hhead.trans ⟨.inl, ?_⟩
        rintro (hhead | ⟨g, hg, -, -, hreach⟩)
        · exact hhead
        · obtain ⟨⟨first, hok⟩, -⟩ := (hgrouped.comesTo_tail hg).1 hreach
          cases hfirst.symm.trans hok
      | ok first =>
        simp only [List.mem_append]
        refine or_congr hhead ((ih hgrouped.tail (h.tail hgrouped)).trans ?_)
        have hok : ∃ first, resolveModule answer (id, k :: ks).2 = .ok first := ⟨first, hfirst⟩
        refine exists_congr fun g => and_congr_right fun hg => ?_
        rw [hcache g hg, hgrouped.comesTo_tail hg, and_iff_right hok]

/-- One resolution asks for no module twice. -/
theorem sublist_calls_resolveGroups (hgrouped : Grouped groups) :
    ((resolveGroups load cache (groups.map (·.2))).calls.map (·.module.id)).Sublist
      (groups.map (·.1)) := by
  induction groups generalizing cache with
  | nil => exact .slnil
  | cons g rest ih =>
    obtain ⟨id, group⟩ := g
    rw [List.map_cons, List.map_cons]
    cases group with
    | nil => exact (ih hgrouped.tail).cons id
    | cons k ks =>
      have hid : k.spec.module.id = id := hgrouped.own (id, k :: ks) (by simp) k (by simp)
      have hcalls :
          ((cache.getOrLoad load k.spec.module).calls.map (·.module.id)).Sublist [id] := by
        rw [cache.calls_getOrLoad]
        split
        · simp
        · simp [LoadCall.of, hid]
      unfold resolveGroups
      simp only
      split
      · exact hcalls.trans (by simp)
      · rw [List.map_append]
        exact hcalls.append (ih hgrouped.tail)

end Groups

/-- A cache gains what the loader gives, also where the resolution fails. -/
theorem get?_cache_resolveGroups {load : ModuleLoader} {cache : ModuleCache}
    {groups : List (List Keyword)} (id : ModuleId) :
    (resolveGroups load cache groups).cache.get? id =
      (cache.get? id <|> granted? (loadsOf load (resolveGroups load cache groups).calls) id) := by
  induction groups generalizing cache with
  | nil => simp [resolveGroups, loadsOf, granted?]
  | cons group rest ih =>
    cases group with
    | nil => exact ih
    | cons k ks =>
      unfold resolveGroups
      simp only
      split
      · exact cache.get?_cache_getOrLoad load k.spec.module id
      · rw [ih, cache.get?_cache_getOrLoad, loadsOf, loadsOf, loadsOf, List.map_append,
          granted?_append]
        simp [Option.or_assoc]

/-! ### Requests -/

theorem mem_groupByModule_cons {keywords : List Keyword} {id : ModuleId} {k : Keyword}
    {ks : List Keyword} : (id, k :: ks) ∈ (groupByModule keywords).toList ↔
      keywords.filter (·.spec.module.id == id) = k :: ks := by
  rw [SortedMap.mem_toList_iff]
  constructor
  · exact fun h => (get?_groupByModule h).symm
  · intro h
    rw [← getD_get?_groupByModule] at h
    cases hget : (groupByModule keywords).get? id with
    | none => simp [hget] at h
    | some group => simpa [hget] using h

namespace Asks

variable {answer : ModuleLoader} {keywords : List Keyword} {module : ModuleRef}

/-- A request comes to a module where it comes to the group of its keywords. -/
theorem iff_comesTo (htop : ∀ k ∈ keywords, k.spec.nested = false) :
    Asks answer keywords module ↔ ∃ k ks,
      keywords.filter (·.spec.module.id == module.id) = k :: ks ∧ k.spec.module = module ∧
        ComesTo answer (groupByModule keywords).toList (module.id, k :: ks) := by
  constructor
  · rintro ⟨-, ⟨k, hfirst, hmodule⟩, before⟩
    rw [← List.head?_filter, List.head?_eq_some_iff] at hfirst
    obtain ⟨ks, hfilter⟩ := hfirst
    refine ⟨k, ks, hfilter, hmodule, ?_⟩
    rintro ⟨id, group⟩ hgroup hlt
    rw [SortedMap.mem_toList_iff] at hgroup
    rw [get?_groupByModule hgroup]
    exact before id hlt
  · rintro ⟨k, ks, hfilter, hmodule, hcomes⟩
    have hfirst : keywords.find? (·.spec.module.id == module.id) = some k := by
      rw [← List.head?_filter, List.head?_eq_some_iff]
      exact ⟨ks, hfilter⟩
    refine ⟨htop, ⟨k, hfirst, hmodule⟩, fun id hlt => ?_⟩
    cases hgroup : keywords.filter (·.spec.module.id == id) with
    | nil => exact ⟨[], rfl⟩
    | cons k' ks' => exact hcomes _ (mem_groupByModule_cons.2 hgroup) hlt

end Asks

namespace Binder

variable {b : Binder} {load : ModuleLoader} {keywords : List Keyword}

/-- A request resolves as if it were known from the start what its modules stand for. -/
theorem result_resolve :
    (b.resolve load keywords).result = resolveRequest (load.after b.cache.get?) keywords := by
  unfold resolve resolveRequest
  cases keywords.find? (·.spec.nested) with
  | some k => rfl
  | none => exact result_resolveGroups (.groupByModule keywords) fun _ _ => rfl

/-- A request asks for the modules that it comes to and that are not loaded yet. -/
theorem mem_calls_resolve {c : LoadCall} : c ∈ (b.resolve load keywords).calls ↔
    c = .of load c.module ∧ b.cache.get? c.module.id = none ∧
      Asks (load.after b.cache.get?) keywords c.module := by
  unfold resolve
  split
  · rename_i nested hnested
    refine iff_of_false (by simp) ?_
    rintro ⟨-, -, hasks⟩
    have htop := hasks.top nested (List.mem_of_find?_eq_some hnested)
    simp [List.find?_some hnested] at htop
  · rename_i hnested
    have htop : ∀ k ∈ keywords, k.spec.nested = false := by simpa using hnested
    rw [Asks.iff_comesTo htop]
    refine (mem_calls_resolveGroups (.groupByModule keywords) fun _ _ => rfl).trans ?_
    constructor
    · rintro ⟨⟨id, group⟩, hgroup, ⟨k, ks, rfl, hcall⟩, hget, hcomes⟩
      have hid : k.spec.module.id = id :=
        (Grouped.groupByModule keywords).own (id, k :: ks) hgroup k (by simp)
      obtain rfl := hcall
      obtain rfl := hid
      exact ⟨rfl, hget, k, ks, mem_groupByModule_cons.1 hgroup, rfl, hcomes⟩
    · rintro ⟨hcall, hget, k, ks, hfilter, hmodule, hcomes⟩
      refine ⟨_, mem_groupByModule_cons.2 hfilter, ⟨k, ks, rfl, ?_⟩, hget, hcomes⟩
      rw [hmodule]
      exact hcall

/-- One request asks for no module twice. -/
theorem nodup_calls_resolve : ((b.resolve load keywords).calls.map (·.module.id)).Nodup := by
  unfold resolve
  split
  · exact .nil
  · exact (sublist_calls_resolveGroups (.groupByModule keywords)).nodup
      (groupByModule keywords).nodup_keys

/-- The binder keeps what the loader gave, also where the request fails. -/
theorem get?_cache_resolve (id : ModuleId) : (b.resolve load keywords).cache.get? id =
    (b.cache.get? id <|> granted? (loadsOf load (b.resolve load keywords).calls) id) := by
  unfold resolve
  split
  · simp [loadsOf, granted?]
  · exact get?_cache_resolveGroups id

end Binder

/-! ## Histories -/

namespace BindState

variable {s : BindState} {r : BindRequest} {requests : List BindRequest} {i : Nat}

theorem calls_report : (s.report r).calls =
    ((s.binders r.binder).resolve r.load r.keywords).calls := by
  unfold report Binder.bind
  simp only
  split <;> rfl

theorem result_report : (s.report r).result =
    (((s.binders r.binder).resolve r.load r.keywords).result).map s.bindings.commit := by
  unfold report Binder.bind
  simp only
  split
  · rename_i hresult
    rw [hresult]
    rfl
  · rename_i hresult
    rw [hresult]
    rfl

theorem cache_report : (s.report r).binder.cache =
    ((s.binders r.binder).resolve r.load r.keywords).cache := by
  unfold report Binder.bind
  simp only
  split <;> rfl

/-- The loads for a binder in the course of requests. -/
def loads (i : Nat) (s : BindState) : List BindRequest → List Load
  | [] => []
  | r :: rest =>
    (if r.binder = i then loadsOf r.load (s.report r).calls else []) ++ loads i (s.serve r) rest

/-- What a binder holds after a request. -/
theorem get?_cache_serve (id : ModuleId) : ((s.serve r).binders i).cache.get? id =
    ((s.binders i).cache.get? id <|>
      granted? (if r.binder = i then loadsOf r.load (s.report r).calls else []) id) := by
  unfold serve
  by_cases hi : r.binder = i
  · subst hi
    simp only [Function.update_self, if_pos, calls_report, cache_report]
    exact Binder.get?_cache_resolve id
  · simp [Ne.symm hi, hi, granted?]

/-- What a binder holds is what it started with and what its loads gave. -/
theorem get?_cache_serveAll (id : ModuleId) : ((s.serveAll requests).binders i).cache.get? id =
    ((s.binders i).cache.get? id <|> granted? (s.loads i requests) id) := by
  induction requests generalizing s with
  | nil => simp [serveAll, loads, granted?]
  | cons r rest ih =>
    refine ih.trans ?_
    rw [get?_cache_serve, loads, granted?_append]
    simp [Option.or_assoc]

/-- No module is asked for that is held. -/
theorem get?_cache_of_mem_loads {l : Load} (h : l ∈ s.loads i requests) :
    (s.binders i).cache.get? l.module.id = none := by
  induction requests generalizing s with
  | nil => cases h
  | cons r rest ih =>
    obtain h | h := List.mem_append.1 h
    · split at h
      · rename_i hi
        obtain ⟨c, hc, rfl⟩ := List.mem_map.1 h
        rw [calls_report, Binder.mem_calls_resolve] at hc
        rw [← hi]
        exact hc.2.1
      · cases h
    · have hserved := ih h
      rw [get?_cache_serve, Option.orElse_eq_orElse, Option.orElse_eq_or,
        Option.or_eq_none_iff] at hserved
      exact hserved.1

/-- After a load that gave a module, nobody is asked for it again. -/
theorem pairwise_loads (s : BindState) (i : Nat) (requests : List BindRequest) :
    (s.loads i requests).Pairwise fun a b =>
      a.module.id = b.module.id → ∃ e, a.answer = .error e := by
  induction requests generalizing s with
  | nil => exact .nil
  | cons r rest ih =>
    refine List.pairwise_append.2 ⟨?_, ih (s.serve r), fun a ha b hb hid => ?_⟩
    · split
      · have hnodup : ((s.report r).calls.map (·.module.id)).Nodup := by
          rw [calls_report]
          exact Binder.nodup_calls_resolve
        refine List.pairwise_map.2 ((List.pairwise_map.1 hnodup).imp fun hne hid => ?_)
        exact absurd hid hne
      · exact .nil
    · have hget := get?_cache_of_mem_loads hb
      rw [get?_cache_serve, Option.orElse_eq_orElse, Option.orElse_eq_or,
        Option.or_eq_none_iff] at hget
      exact granted?_eq_none_iff.1 hget.2 a ha hid

/-- The loads of a binder are `log`, and the binder loads each module once. -/
structure LoadsOnce (s : BindState) (i : Nat) (log : List Load) : Prop where
  /-- Of two loads of one module the earlier was refused. -/
  once : log.Pairwise fun a b => a.module.id = b.module.id → ∃ e, a.answer = .error e
  /-- The binder holds what was loaded, in requests that failed as in others. -/
  held : ∀ id, (s.binders i).cache.get? id = granted? log id
  /-- A request makes no two loads of one module. -/
  distinct : ∀ r : BindRequest, ((s.report r).calls.map (·.module.id)).Nodup
  /-- A request with a nested keyword makes no load. -/
  nested : ∀ r : BindRequest, (∃ k ∈ r.keywords, k.spec.nested = true) → (s.report r).calls = []
  /-- A request loads the modules that it comes to and that no load gave yet. -/
  asked : ∀ r : BindRequest, r.binder = i → ∀ c, c ∈ (s.report r).calls ↔
    c = .of r.load c.module ∧ granted? log c.module.id = none ∧
      Asks (r.load.after (granted? log)) r.keywords c.module
  /-- A request takes what is loaded from there. -/
  resolved : ∀ r : BindRequest, r.binder = i → (s.report r).result =
    (resolveRequest (r.load.after (granted? log)) r.keywords).map s.bindings.commit

/-- Whatever is asked for, and with whatever loaders, each binder loads each module once. -/
theorem loadsOnce_serveAll (i : Nat) (requests : List BindRequest) :
    LoadsOnce ((start fun _ => .empty).serveAll requests) i
      ((start fun _ => .empty).loads i requests) := by
  have held : (((start fun _ => .empty).serveAll requests).binders i).cache.get? =
      granted? ((start fun _ => .empty).loads i requests) := by
    funext id
    rw [get?_cache_serveAll]
    rfl
  refine ⟨pairwise_loads _ i requests, congrFun held, fun r => ?_, fun r hnested => ?_,
    fun r hi c => ?_, fun r hi => ?_⟩
  · rw [calls_report]
    exact Binder.nodup_calls_resolve
  · obtain ⟨k, hk, hnested⟩ := hnested
    rw [calls_report, List.eq_nil_iff_forall_not_mem]
    intro c hc
    have htop := (Binder.mem_calls_resolve.1 hc).2.2.top k hk
    simp [hnested] at htop
  · subst hi
    rw [calls_report, Binder.mem_calls_resolve, held]
  · subst hi
    rw [result_report, Binder.result_resolve, held]

end BindState

end KeywordEngine
