import KeywordEngine.Binding.Module

/-!
# Binding

Binding attaches to keywords the code behind them. A request names keywords at the top of their
forests and binds each of their trees: the implementation of a root is what its module resolves for
its name, and that of a nested keyword is what the implementation around it declares under its
name. The whole request is resolved before anything is attached, so it binds all of its trees or
none, and what is attached once is never replaced.

* `Bindings.find?_attach`: attaching changes one lookup, and only if it found nothing before.
* `Binder.bind`: one request, with the requests it made to the loader.
-/

namespace KeywordEngine

/-- The code attached to a keyword. -/
structure RuntimeInfo where
  implementation : Implementation
  /-- The hooks that the implementation declared when it was attached. -/
  hooks : HookSet

namespace RuntimeInfo

/-- What is attached for an implementation. -/
def of (t : Implementation) : RuntimeInfo := ⟨t, t.hooks⟩

/-- Whether invocations call the `enterScope` hook. -/
def hasEnterHook (r : RuntimeInfo) : Bool := r.hooks.contains .enterScope

/-- Whether invocations call the `leaveScope` hook. -/
def hasLeaveHook (r : RuntimeInfo) : Bool := r.hooks.contains .leaveScope

/-- Whether invocations open a scope at all. -/
def usesScope (r : RuntimeInfo) : Bool := r.hasEnterHook || r.hasLeaveHook

end RuntimeInfo

/-! ## What is attached -/

/-- The code attached to keywords so far. -/
structure Bindings where
  entries : List (KeywordId × RuntimeInfo)

namespace Bindings

/-- Nothing is attached. -/
def empty : Bindings := ⟨[]⟩

instance : Inhabited Bindings := ⟨empty⟩

/-- What is attached to the keyword in that place. -/
def find? (b : Bindings) (id : KeywordId) : Option RuntimeInfo := b.entries.lookup id

/-- What is attached to a keyword. -/
abbrev runtime? (b : Bindings) (k : Keyword) : Option RuntimeInfo := b.find? k.id

/-- Whether the invocations of a keyword call an enter hook. -/
def callsEnter (b : Bindings) (k : Keyword) : Bool :=
  (b.runtime? k).any (·.hasEnterHook)

/-- Whether the invocations of a keyword call a leave hook. -/
def callsLeave (b : Bindings) (k : Keyword) : Bool :=
  (b.runtime? k).any (·.hasLeaveHook)

/-- Attaches `r` to the keyword in that place, unless something is attached to it already. -/
def attach (b : Bindings) (id : KeywordId) (r : RuntimeInfo) : Bindings :=
  if (b.find? id).isSome then b else ⟨(id, r) :: b.entries⟩

/-- Attaching changes one lookup, and only if it found nothing before. -/
theorem find?_attach (b : Bindings) (id j : KeywordId) (r : RuntimeInfo) :
    (b.attach id r).find? j = if id = j then b.find? id <|> some r else b.find? j := by
  unfold attach
  split
  · rename_i h
    obtain ⟨s, hs⟩ := Option.isSome_iff_exists.1 h
    split
    · rename_i hj
      simp [← hj, hs]
    · rfl
  · rename_i h
    rw [Option.not_isSome_iff_eq_none] at h
    by_cases hj : id = j
    · subst hj
      rw [if_pos rfl, h]
      simp [find?]
    · have : (j == id) = false := by simp [Ne.symm hj]
      simp [find?, List.lookup_cons, this, hj]

end Bindings

/-- An implementation resolved for a keyword and not yet attached. -/
structure Attachment where
  id : KeywordId
  /-- The name of the keyword. -/
  keyword : String
  implementation : Implementation

/-- What attaching changed. -/
structure Commit where
  bindings : Bindings
  /-- The number of keywords that got their code. -/
  attached : Nat
  /-- The names of the keywords that had theirs already. -/
  skipped : List String

/-- Attaches one implementation. -/
def Commit.add (c : Commit) (a : Attachment) : Commit :=
  if (c.bindings.find? a.id).isSome then { c with skipped := c.skipped ++ [a.keyword] }
  else { c with
    bindings := c.bindings.attach a.id (.of a.implementation)
    attached := c.attached + 1 }

/-- Attaches implementations one after the other. -/
def Bindings.commit (b : Bindings) (attachments : List Attachment) : Commit :=
  attachments.foldl Commit.add ⟨b, 0, []⟩

/-! ## Resolution -/

mutual
/-- The attachments of a keyword and everything nested in it, the nested ones first, given the
implementation of the keyword itself. -/
def resolveTree (id : KeywordId) (t : Implementation) :
    KeywordSpec → Except BindingError (List Attachment)
  | ⟨name, _, _, _, _, _, children, _, _⟩ => do
    let nested ← resolveChildren id name t 0 children
    return nested ++ [⟨id, name, t⟩]

/-- The attachments of the keywords nested in `parent`, from the one with the given index on. -/
def resolveChildren (id : KeywordId) (parent : String) (t : Implementation) (index : Nat) :
    List KeywordSpec → Except BindingError (List Attachment)
  | [] => return []
  | k :: rest => do
    match t.nested? k.name with
    | none => throw (.missingNestedType parent k.name)
    | some nested =>
      let tree ← resolveTree (id.child index) nested k
      return tree ++ (← resolveChildren id parent t (index + 1) rest)
end

/-- The attachments of keywords of one loaded module. -/
def resolveGroup (module : ModuleRef) (loaded : LoadedModule) :
    List Keyword → Except BindingError (List Attachment)
  | [] => return []
  | k :: rest => do
    match loaded.resolve? k.name with
    | none => throw (.missingType module.text k.name)
    | some t =>
      let tree ← resolveTree k.id t k.spec
      return tree ++ (← resolveGroup module loaded rest)

/-- The keywords of a request by the identity of their module, each group in request order. -/
def groupByModule (keywords : List Keyword) : SortedMap ModuleId (List Keyword) :=
  keywords.foldl (fun groups k =>
    let id := k.spec.module.id
    groups.insert id ((groups.get? id).getD [] ++ [k])) .empty

/-! ## Requests -/

/-- A resolution with the cache it left and the requests it made. -/
structure Resolution where
  cache : ModuleCache
  calls : List LoadCall
  result : Except BindingError (List Attachment)

/-- Resolves the groups of a request one after the other. Each group loads its module under the
reference that its first keyword gives; the first fault ends the resolution. -/
def resolveGroups (load : ModuleLoader) (cache : ModuleCache) : List (List Keyword) → Resolution
  | [] => ⟨cache, [], .ok []⟩
  | [] :: rest => resolveGroups load cache rest
  | (k :: ks) :: rest =>
    let answer := cache.getOrLoad load k.spec.module
    match answer.result.bind fun loaded => resolveGroup k.spec.module loaded (k :: ks) with
    | .error e => ⟨answer.cache, answer.calls, .error e⟩
    | .ok attachments =>
      let others := resolveGroups load answer.cache rest
      ⟨others.cache, answer.calls ++ others.calls, others.result.map (attachments ++ ·)⟩

/-- A binder keeps its loaded modules from one request to the next. -/
structure Binder where
  cache : ModuleCache

namespace Binder

/-- A binder that has loaded nothing. -/
def empty : Binder := ⟨.empty⟩

instance : Inhabited Binder := ⟨empty⟩

/-- The number of modules loaded. -/
def loadedModuleCount (b : Binder) : Nat := b.cache.size

/-- Resolves a request. A nested keyword in it is refused before any module is loaded. -/
def resolve (b : Binder) (load : ModuleLoader) (keywords : List Keyword) : Resolution :=
  match keywords.find? (·.spec.nested) with
  | some k => ⟨b.cache, [], .error (.nestedSpecAtTopLevel k.name)⟩
  | none => resolveGroups load b.cache (groupByModule keywords).values

end Binder

/-- The outcome of a request. -/
structure BindReport where
  binder : Binder
  /-- What is attached afterwards. -/
  bindings : Bindings
  /-- The requests to the loader. -/
  calls : List LoadCall
  /-- The keywords of the request. -/
  keywords : List Keyword
  result : Except BindingError Commit

/-- Binds the trees of all keywords of a request, or none of them. -/
def Binder.bind (b : Binder) (bindings : Bindings) (load : ModuleLoader)
    (keywords : List Keyword) : BindReport :=
  let r := b.resolve load keywords
  match r.result with
  | .ok attachments =>
    let commit := bindings.commit attachments
    ⟨⟨r.cache⟩, commit.bindings, r.calls, keywords, .ok commit⟩
  | .error e => ⟨⟨r.cache⟩, bindings, r.calls, keywords, .error e⟩

/-- The events of a request: its load requests, the keywords that had their code already, and how
it ended. -/
def BindReport.events (r : BindReport) : List Log.Event :=
  let count := ("keyword_count", Text.ofNat r.keywords.length)
  r.calls.map (·.event) ++
    match r.result with
    | .ok commit =>
      commit.skipped.map (fun name => ⟨.debug, "keyword_bind", "binder", "skip",
        [("keyword", name), ("reason", "already_bound")]⟩) ++
      [⟨.info, "keyword_bind", "binder", "ok",
        [count, ("committed", Text.ofNat commit.attached)]⟩]
    | .error e => [⟨.error, "keyword_bind", "binder", "error", [count, ("error", e.message)]⟩]

end KeywordEngine
