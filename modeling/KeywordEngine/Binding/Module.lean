import KeywordEngine.Implementation
import KeywordEngine.Log.Event

/-!
# Loading modules

A loader turns a module reference into loaded code or refuses. A cache asks a loader for each
module until it has it once and then keeps it (`ModuleCache.getOrLoad`); what was refused is asked
for again.

* `StaticLoader` serves a fixed set of modules and counts the requests it served.
-/

namespace KeywordEngine

/-- Why keywords are not bound. -/
inductive BindingError where
  | moduleLoad (module message : String)
  /-- A keyword at module root has no implementation in its module. -/
  | missingType (module typeName : String)
  /-- A nested keyword is gone from the implementation of the one around it. -/
  | missingNestedType (parent typeName : String)
  /-- A nested keyword cannot be bound without the one around it. -/
  | nestedSpecAtTopLevel (name : String)
  deriving DecidableEq, Repr

/-- The error as shown to the user. -/
def BindingError.message : BindingError → String
  | moduleLoad module message => "failed to load module `" ++ module ++ "`: " ++ message
  | missingType module typeName =>
    "module `" ++ module ++ "` has no keyword type `" ++ typeName ++ "`"
  | missingNestedType parent typeName =>
    "keyword type `" ++ parent ++ "` no longer declares nested type `" ++ typeName ++
      "`; module is stale"
  | nestedSpecAtTopLevel name => "nested keyword `" ++ name ++ "` cannot be bound on its own"

/-- How modules are loaded. -/
abbrev ModuleLoader := ModuleRef → Except BindingError LoadedModule

/-! ## Requests to a loader -/

/-- One request to a loader and why it was refused, if it was. -/
structure LoadCall where
  module : ModuleRef
  refusal : Option BindingError
  deriving DecidableEq, Repr

/-- The event of a request. -/
def LoadCall.event (c : LoadCall) : Log.Event :=
  match c.refusal with
  | none => ⟨.info, "module_load", "binder", "ok", [("target", c.module.text)]⟩
  | some e =>
    ⟨.error, "module_load", "binder", "error", [("target", c.module.text), ("error", e.message)]⟩

/-! ## The cache -/

/-- The loaded modules by identity. -/
abbrev ModuleCache := SortedMap ModuleId LoadedModule

/-- The outcome of asking a cache for a module. -/
structure CacheAnswer where
  cache : ModuleCache
  /-- The request to the loader, if there was one. -/
  calls : List LoadCall
  result : Except BindingError LoadedModule

/-- The module from the cache, or else from the loader, which puts it into the cache. -/
def ModuleCache.getOrLoad (cache : ModuleCache) (load : ModuleLoader) (module : ModuleRef) :
    CacheAnswer :=
  match cache.get? module.id with
  | some loaded => ⟨cache, [], .ok loaded⟩
  | none =>
    match load module with
    | .ok loaded => ⟨cache.insert module.id loaded, [⟨module, none⟩], .ok loaded⟩
    | .error e => ⟨cache, [⟨module, some e⟩], .error e⟩

/-! ## Static modules -/

/-- A loader over a fixed set of modules. -/
structure StaticLoader where
  modules : SortedMap ModuleId LoadedModule
  /-- The number of requests served so far. -/
  served : Nat

namespace StaticLoader

/-- A loader over the given modules; of two with one identity the later counts. -/
def ofModules (modules : List LoadedModule) : StaticLoader :=
  ⟨.ofList (modules.map fun m => (m.module.id, m)), 0⟩

/-- What the loader answers. -/
def load (l : StaticLoader) : ModuleLoader := fun module =>
  match l.modules.get? module.id with
  | some loaded => .ok loaded
  | none => .error (.moduleLoad module.text "module is not registered with this loader")

/-- The loader after some requests. -/
def serve (l : StaticLoader) (calls : List LoadCall) : StaticLoader :=
  { l with served := l.served + calls.length }

end StaticLoader

end KeywordEngine
