import KeywordEngine.Binding
import KeywordEngine.Proofs.Forest
import KeywordEngine.Proofs.Success

/-!
# What a request resolves

A request that resolves gives one implementation to every keyword in the trees it names, and to no
other.

* `Resolves`: the implementation that a keyword has in a tree, given that of the root. A place in the
  tree determines it (`Resolves.eq_of_id_eq`).
* `Covers`: attachments for exactly the trees of some keywords. Each level of resolution is shown to
  give such attachments: `covers_of_resolveTree`, `covers_of_resolveGroup`,
  `covers_of_resolveGroups`, and for a whole request `covers_of_resolve`.
* `Binder.usedModule?`: the module that a request takes its implementations from.
-/

namespace KeywordEngine

/-! ## Implementations in a tree -/

/-- The implementation of a keyword in the tree of `root`, where that of `root` is `t`: a nested
keyword has the one that the implementation around it declares under its name. -/
inductive Resolves (root : Keyword) (t : Implementation) : Keyword → Implementation → Prop
  | self : Resolves root t root t
  | nested {parent k : Keyword} {u v : Implementation} (held : Resolves root t parent u)
      (listed : k ∈ parent.children) (declared : u.nested? k.name = some v) : Resolves root t k v

namespace Resolves

variable {root k k' : Keyword} {t u u' : Implementation}

theorem within (h : Resolves root t k u) : root.Within k := by
  induction h with
  | self => exact .self
  | nested _ listed _ ih => exact .nested ih listed

theorem of_child {child : Keyword} {v : Implementation} (listed : child ∈ root.children)
    (declared : t.nested? child.name = some v) (h : Resolves child v k u) : Resolves root t k u := by
  induction h with
  | self => exact .nested .self listed declared
  | nested _ listed declared ih => exact .nested ih listed declared

/-- A place has one implementation. -/
theorem eq_of_id_eq (h : Resolves root t k u) (h' : Resolves root t k' u') (hid : k.id = k'.id) :
    u = u' := by
  obtain rfl := h.within.eq_of_id_eq h'.within hid
  clear hid
  induction h generalizing u' with
  | self =>
    cases h' with
    | self => rfl
    | nested held listed _ => exact absurd rfl (held.within.id_ne_of_mem_children listed)
  | @nested parent k u v held listed declared ih =>
    cases h' with
    | self => exact absurd rfl (held.within.id_ne_of_mem_children listed)
    | @nested parent' _ w _ held' listed' declared' =>
      have hparent := Keyword.id_eq_of_mem_children listed listed' rfl
      obtain rfl := held.within.eq_of_id_eq held'.within hparent
      obtain rfl := ih held'
      exact Option.some.inj (declared.symm.trans declared')

/-- What is resolved for a child is what the implementation around it declares. -/
theorem nested?_of_mem_children {v : Implementation} (h : Resolves root t k v) {parent : Keyword}
    (hparent : Resolves root t parent u) (listed : k ∈ parent.children) :
    u.nested? k.name = some v := by
  cases h with
  | self => exact absurd rfl (hparent.within.id_ne_of_mem_children listed)
  | nested held listed' declared =>
    rwa [hparent.eq_of_id_eq held (Keyword.id_eq_of_mem_children listed listed' rfl)]

end Resolves

/-! ## Attachments for trees -/

/-- Attachments for the trees of `roots` and for nothing else, where `resolve?` gives the
implementations of the roots. -/
structure Covers (resolve? : Keyword → Option Implementation) (roots : List Keyword)
    (attachments : List Attachment) : Prop where
  complete : ∀ root ∈ roots, ∃ t, resolve? root = some t ∧
    ∀ k, root.Within k → ∃ u, Resolves root t k u ∧ ∃ a ∈ attachments, a.id = k.id
  sound : ∀ a ∈ attachments, ∃ root ∈ roots, ∃ t k, resolve? root = some t ∧
    Resolves root t k a.implementation ∧ a.id = k.id

namespace Covers

variable {resolve? : Keyword → Option Implementation} {roots roots' : List Keyword}
  {attachments attachments' : List Attachment}

theorem nil : Covers resolve? [] [] := ⟨by simp, by simp⟩

theorem append (h : Covers resolve? roots attachments) (h' : Covers resolve? roots' attachments') :
    Covers resolve? (roots ++ roots') (attachments ++ attachments') where
  complete root hroot := by
    obtain hroot | hroot := List.mem_append.1 hroot
    · obtain ⟨t, ht, htree⟩ := h.complete root hroot
      refine ⟨t, ht, fun k hk => ?_⟩
      obtain ⟨u, hu, a, ha, hid⟩ := htree k hk
      exact ⟨u, hu, a, List.mem_append_left _ ha, hid⟩
    · obtain ⟨t, ht, htree⟩ := h'.complete root hroot
      refine ⟨t, ht, fun k hk => ?_⟩
      obtain ⟨u, hu, a, ha, hid⟩ := htree k hk
      exact ⟨u, hu, a, List.mem_append_right _ ha, hid⟩
  sound a ha := by
    obtain ha | ha := List.mem_append.1 ha
    · obtain ⟨root, hroot, hresolved⟩ := h.sound a ha
      exact ⟨root, List.mem_append_left _ hroot, hresolved⟩
    · obtain ⟨root, hroot, hresolved⟩ := h'.sound a ha
      exact ⟨root, List.mem_append_right _ hroot, hresolved⟩

theorem cons {root : Keyword} (h : Covers resolve? [root] attachments)
    (h' : Covers resolve? roots attachments') :
    Covers resolve? (root :: roots) (attachments ++ attachments') := h.append h'

/-- It matters only which roots there are and what they resolve to. -/
theorem congr {resolve?' : Keyword → Option Implementation}
    (h : Covers resolve? roots attachments) (hroots : ∀ root, root ∈ roots ↔ root ∈ roots')
    (hresolve : ∀ root ∈ roots, resolve? root = resolve?' root) :
    Covers resolve?' roots' attachments where
  complete root hroot := by
    rw [← hroots] at hroot
    rw [← hresolve root hroot]
    exact h.complete root hroot
  sound a ha := by
    obtain ⟨root, hroot, t, k, ht, hresolved⟩ := h.sound a ha
    exact ⟨root, (hroots root).1 hroot, t, k, hresolve root hroot ▸ ht, hresolved⟩

/-- There is a first attachment for each keyword of a covered tree. -/
theorem exists_find? (h : Covers resolve? roots attachments) {root k : Keyword}
    (hroot : root ∈ roots) (hk : root.Within k) :
    ∃ a ∈ attachments, attachments.find? (·.id == k.id) = some a ∧ a.id = k.id := by
  obtain ⟨t, -, htree⟩ := h.complete root hroot
  obtain ⟨u, -, a, ha, hid⟩ := htree k hk
  have hsome : (attachments.find? (·.id == k.id)).isSome = true := by
    rw [List.find?_isSome]
    exact ⟨a, ha, by simp [hid]⟩
  obtain ⟨first, hfirst⟩ := Option.isSome_iff_exists.1 hsome
  exact ⟨first, List.mem_of_find?_eq_some hfirst, hfirst, by simpa using List.find?_some hfirst⟩

/-- Attachments for the children and one for the root cover the tree. -/
theorem tree {root : Keyword} {t : Implementation}
    (h : Covers (fun child => t.nested? child.name) root.children attachments) (name : String) :
    Covers (fun _ => some t) [root] (attachments ++ [⟨root.id, name, t⟩]) where
  complete k hroot := by
    obtain rfl := List.mem_singleton.1 hroot
    refine ⟨t, rfl, fun k' hk => ?_⟩
    obtain rfl | ⟨child, hchild, hk⟩ := hk.cases_child
    · exact ⟨t, .self, ⟨k'.id, name, t⟩, by simp, rfl⟩
    · obtain ⟨v, hv, htree⟩ := h.complete child hchild
      obtain ⟨u, hu, a, ha, hid⟩ := htree k' hk
      exact ⟨u, hu.of_child hchild hv, a, List.mem_append_left _ ha, hid⟩
  sound a ha := by
    refine ⟨root, by simp, t, ?_⟩
    obtain ha | ha := List.mem_append.1 ha
    · obtain ⟨child, hchild, v, k, hv, hu, hid⟩ := h.sound a ha
      exact ⟨k, rfl, hu.of_child hchild hv, hid⟩
    · obtain rfl := List.mem_singleton.1 ha
      exact ⟨root, rfl, .self, rfl⟩

end Covers

/-! ## Resolution of trees -/

mutual
theorem covers_of_resolveTree {id : KeywordId} {t : Implementation} {spec : KeywordSpec}
    {attachments : List Attachment} (h : resolveTree id t spec = .ok attachments) :
    Covers (fun _ => some t) [⟨id, spec⟩] attachments := by
  obtain ⟨name, body, use, defaultSet, parameters, properties, children, isNested, module⟩ := spec
  unfold resolveTree at h
  obtain ⟨nested, hnested, h⟩ := Success.bind_eq_ok.1 h
  obtain rfl := Success.pure_eq_ok.1 h
  let root : Keyword := ⟨id, ⟨name, body, use, defaultSet, parameters, properties, children, isNested,
    module⟩⟩
  have hchildren : Covers (fun child => t.nested? child.name) root.children nested := by
    have hcovers := covers_of_resolveChildren hnested
    simp only [Nat.zero_add] at hcovers
    exact hcovers
  exact hchildren.tree name

theorem covers_of_resolveChildren {id : KeywordId} {parent : String} {t : Implementation}
    {index : Nat} {specs : List KeywordSpec} {attachments : List Attachment}
    (h : resolveChildren id parent t index specs = .ok attachments) :
    Covers (fun child => t.nested? child.name)
      (specs.mapIdx fun i spec => ⟨id.child (index + i), spec⟩) attachments := by
  cases specs with
  | nil =>
    unfold resolveChildren at h
    obtain rfl := Success.pure_eq_ok.1 h
    exact .nil
  | cons spec rest =>
    unfold resolveChildren at h
    cases hv : t.nested? spec.name with
    | none => simp [hv] at h
    | some v =>
      simp only [hv] at h
      obtain ⟨first, hfirst, h⟩ := Success.bind_eq_ok.1 h
      obtain ⟨others, hothers, h⟩ := Success.bind_eq_ok.1 h
      obtain rfl := Success.pure_eq_ok.1 h
      have hchild := covers_of_resolveTree hfirst
      have hrest := covers_of_resolveChildren hothers
      rw [List.mapIdx_cons]
      refine Covers.cons (hchild.congr (fun _ => Iff.rfl) ?_) ?_
      · intro root hroot
        obtain rfl := List.mem_singleton.1 hroot
        exact hv.symm
      · simpa only [Nat.add_right_comm, Nat.add_assoc, Nat.add_comm 1] using hrest
end

/-! ## Resolution of a request -/

theorem covers_of_resolveGroup {module : ModuleRef} {loaded : LoadedModule} {keywords : List Keyword}
    {attachments : List Attachment} (h : resolveGroup module loaded keywords = .ok attachments) :
    Covers (fun k => loaded.resolve? k.name) keywords attachments := by
  induction keywords generalizing attachments with
  | nil =>
    obtain rfl := Success.pure_eq_ok.1 h
    exact .nil
  | cons k rest ih =>
    unfold resolveGroup at h
    cases ht : loaded.resolve? k.name with
    | none => simp [ht] at h
    | some t =>
      simp only [ht] at h
      obtain ⟨first, hfirst, h⟩ := Success.bind_eq_ok.1 h
      obtain ⟨others, hothers, h⟩ := Success.bind_eq_ok.1 h
      obtain rfl := Success.pure_eq_ok.1 h
      refine Covers.cons ((covers_of_resolveTree hfirst).congr (fun _ => Iff.rfl) ?_) (ih hothers)
      intro root hroot
      obtain rfl := List.mem_singleton.1 hroot
      exact ht.symm

/-! ### Modules -/

namespace ModuleCache

variable (cache : ModuleCache) (load : ModuleLoader)

/-- What the cache or else the loader gives for a reference. -/
def answer? (module : ModuleRef) : Option LoadedModule :=
  (cache.getOrLoad load module).result.toOption

theorem answer?_eq (module : ModuleRef) :
    cache.answer? load module = (cache.get? module.id <|> (load module).toOption) := by
  unfold answer? getOrLoad
  cases cache.get? module.id with
  | some loaded => rfl
  | none => cases load module <;> rfl

/-- What is loaded for one module does not matter for another. -/
theorem answer?_getOrLoad {module module' : ModuleRef} (h : module.id ≠ module'.id) :
    answer? (cache.getOrLoad load module).cache load module' = cache.answer? load module' := by
  have hget : (cache.getOrLoad load module).cache.get? module'.id = cache.get? module'.id := by
    unfold getOrLoad
    cases cache.get? module.id with
    | some loaded => rfl
    | none =>
      cases load module with
      | error e => rfl
      | ok loaded => exact (SortedMap.get?_insert ..).trans (if_neg h)
  rw [answer?_eq, answer?_eq, hget]

end ModuleCache

/-- Groups of keywords by module cover what the modules in `used` resolve, where these are the answers
for the first keyword of each group. -/
theorem covers_of_resolveGroups {load : ModuleLoader} {cache : ModuleCache}
    {groups : List (ModuleId × List Keyword)} {attachments : List Attachment}
    {used : ModuleId → Option LoadedModule} (hkeys : (groups.map (·.1)).Nodup)
    (hids : ∀ g ∈ groups, ∀ k ∈ g.2, k.spec.module.id = g.1)
    (hused : ∀ g ∈ groups, ∀ k rest, g.2 = k :: rest →
      used g.1 = cache.answer? load k.spec.module)
    (h : (resolveGroups load cache (groups.map (·.2))).result = .ok attachments) :
    Covers (fun k => (used k.spec.module.id).bind (·.resolve? k.name)) (groups.flatMap (·.2))
      attachments := by
  induction groups generalizing cache attachments with
  | nil =>
    obtain rfl := Except.ok.inj h
    exact .nil
  | cons g rest ih =>
    obtain ⟨id, group⟩ := g
    rw [List.map_cons, List.nodup_cons] at hkeys
    rw [List.forall_mem_cons] at hids hused
    rw [List.flatMap_cons]
    cases group with
    | nil => exact ih hkeys.2 hids.2 hused.2 h
    | cons k ks =>
      have hid : k.spec.module.id = id := hids.1 k (by simp)
      have hanswer : used id = cache.answer? load k.spec.module := hused.1 k ks rfl
      rw [List.map_cons] at h
      unfold resolveGroups at h
      simp only at h
      split at h
      · cases h
      · rename_i first hfirst
        obtain ⟨others, hothers, rfl⟩ := Success.map_eq_ok.1 h
        obtain ⟨loaded, hloaded, hgroup⟩ := Success.bind_eq_ok.1 hfirst
        have hmodule : used id = some loaded := by
          rw [hanswer, ModuleCache.answer?, hloaded]
          rfl
        refine Covers.append ((covers_of_resolveGroup hgroup).congr (fun _ => Iff.rfl) ?_) ?_
        · intro root hroot
          rw [hids.1 root hroot, hmodule]
          rfl
        · refine ih hkeys.2 hids.2 ?_ hothers
          intro g' hg' k' rest' hk'
          rw [hused.2 g' hg' k' rest' hk', cache.answer?_getOrLoad load]
          have hid' := hids.2 g' hg' k' (by simp [hk'])
          rw [hid, hid']
          rintro rfl
          exact hkeys.1 (List.mem_map.2 ⟨g', hg', rfl⟩)

/-! ### Groups -/

/-- The keywords of a request with one module, after those that `groups` has already. -/
theorem get?_foldl_groups (groups : SortedMap ModuleId (List Keyword)) (keywords : List Keyword)
    (id : ModuleId) :
    ((keywords.foldl (fun groups k =>
      groups.insert k.spec.module.id ((groups.get? k.spec.module.id).getD [] ++ [k])) groups).get?
        id).getD [] = (groups.get? id).getD [] ++ keywords.filter (·.spec.module.id == id) := by
  induction keywords generalizing groups with
  | nil => simp
  | cons k rest ih =>
    rw [List.foldl_cons, ih, SortedMap.get?_insert]
    by_cases hid : k.spec.module.id = id
    · simp [hid]
    · simp [hid]

theorem getD_get?_groupByModule (keywords : List Keyword) (id : ModuleId) :
    ((groupByModule keywords).get? id).getD [] = keywords.filter (·.spec.module.id == id) :=
  (get?_foldl_groups .empty keywords id).trans (by simp)

theorem get?_groupByModule {keywords : List Keyword} {id : ModuleId} {group : List Keyword}
    (h : (groupByModule keywords).get? id = some group) :
    group = keywords.filter (·.spec.module.id == id) := by
  rw [← getD_get?_groupByModule, h, Option.getD_some]

theorem mem_groupByModule {keywords : List Keyword} {k : Keyword} :
    k ∈ (groupByModule keywords).toList.flatMap (·.2) ↔ k ∈ keywords := by
  rw [List.mem_flatMap]
  constructor
  · rintro ⟨⟨id, group⟩, hgroup, hk⟩
    rw [SortedMap.mem_toList_iff] at hgroup
    rw [get?_groupByModule hgroup] at hk
    exact (List.mem_filter.1 hk).1
  · intro hk
    have hfilter : k ∈ keywords.filter (·.spec.module.id == k.spec.module.id) := by simp [hk]
    rw [← getD_get?_groupByModule] at hfilter
    cases hget : (groupByModule keywords).get? k.spec.module.id with
    | none =>
      rw [hget] at hfilter
      cases hfilter
    | some group =>
      rw [hget] at hfilter
      exact ⟨(k.spec.module.id, group), SortedMap.mem_toList_iff.2 hget, hfilter⟩

/-! ### Requests -/

/-- The module that the keywords with the module identity `id` are taken from in a request: the
answer for the reference that the first of them gives. -/
def Binder.usedModule? (b : Binder) (load : ModuleLoader) (keywords : List Keyword)
    (id : ModuleId) : Option LoadedModule :=
  (keywords.find? (·.spec.module.id == id)).bind fun k => b.cache.answer? load k.spec.module

/-- A request that resolves covers the trees that it names, each with the implementation that the
module used for it resolves. -/
theorem covers_of_resolve {b : Binder} {load : ModuleLoader} {keywords : List Keyword}
    {attachments : List Attachment} (h : (b.resolve load keywords).result = .ok attachments) :
    (∀ k ∈ keywords, k.spec.nested = false) ∧
      Covers (fun k => (b.usedModule? load keywords k.spec.module.id).bind (·.resolve? k.name))
        keywords attachments := by
  unfold Binder.resolve at h
  split at h
  · cases h
  · rename_i hnested
    have hids : ∀ g ∈ (groupByModule keywords).toList, ∀ k ∈ g.2, k.spec.module.id = g.1 := by
      rintro ⟨id, group⟩ hgroup k hk
      rw [SortedMap.mem_toList_iff] at hgroup
      rw [get?_groupByModule hgroup] at hk
      simpa using (List.mem_filter.1 hk).2
    have hused : ∀ g ∈ (groupByModule keywords).toList, ∀ k rest, g.2 = k :: rest →
        b.usedModule? load keywords g.1 = b.cache.answer? load k.spec.module := by
      rintro ⟨id, group⟩ hgroup k rest hk
      rw [SortedMap.mem_toList_iff] at hgroup
      have hfirst : keywords.find? (·.spec.module.id == id) = some k := by
        rw [← List.head?_filter, ← get?_groupByModule hgroup, show group = k :: rest from hk]
        rfl
      unfold Binder.usedModule?
      rw [hfirst]
      rfl
    have hcovers := covers_of_resolveGroups (groupByModule keywords).nodup_keys hids hused h
    exact ⟨by simpa using hnested, hcovers.congr (fun _ => mem_groupByModule) fun _ _ => rfl⟩

end KeywordEngine
