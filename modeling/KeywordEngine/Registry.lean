import KeywordEngine.Binding
import KeywordEngine.Discovery
import KeywordEngine.Store

/-!
# The registry

A registry holds the keywords of modules and finds them by name without regard to case. A module is
registered at most once, and no two registered keywords share a name. A registration that fails
changes nothing.

* `Registry.register`: one module. The caller names the new forest.
* `Registry.registerStore`: every module of a store, each on its own.
* `Registry.bindAll`: every registered module, each as a request of its own.
-/

namespace KeywordEngine

/-- A registered module with its keywords in name order. -/
structure RegisteredModule where
  module : ModuleRef
  keywords : List Keyword

/-- Registered modules with an index of their keywords. -/
structure Registry where
  modules : SortedMap ModuleId RegisteredModule
  /-- The keywords by folded name. -/
  index : SortedMap String Keyword

/-- Why a module is not registered. -/
inductive RegistryError where
  | discovery (error : DeclarationError)
  | metadata (error : StoreError)
  | duplicateModule (module : String)
  | keywordConflict (keyword registeredBy module : String)
  deriving DecidableEq, Repr

/-- The error as shown to the user. -/
def RegistryError.message : RegistryError → String
  | discovery error => error.message
  | metadata error => error.message
  | duplicateModule module => "module already registered: " ++ module
  | keywordConflict keyword registeredBy module =>
    "keyword `" ++ keyword ++ "` from `" ++ module ++ "` is already registered by `" ++
      registeredBy ++ "`"

/-- The outcome of registering a module. -/
structure Registration where
  registry : Registry
  /-- The number of keywords registered. -/
  result : Except RegistryError Nat
  events : List Log.Event

/-- What became of one module of a store. -/
structure ModuleReport where
  module : ModuleRef
  /-- The number of keywords registered. -/
  result : Except RegistryError Nat

/-- The outcome of registering a store. -/
structure StoreRegistration where
  registry : Registry
  reports : List ModuleReport
  events : List Log.Event

namespace Registry

/-- The registry without modules. -/
def empty : Registry := ⟨.empty, .empty⟩

instance : Inhabited Registry := ⟨empty⟩

/-! ## Lookups -/

/-- The keyword of that name. -/
def get? (r : Registry) (name : String) : Option Keyword := r.index.get? (Text.fold name)

/-- Whether there is a keyword of that name. -/
def contains (r : Registry) (name : String) : Bool := (r.get? name).isSome

/-- The keywords by folded name. -/
def keywords (r : Registry) : List Keyword := r.index.values

/-- The keywords of a module. -/
def keywordsOf? (r : Registry) (id : ModuleId) : Option (List Keyword) :=
  (r.modules.get? id).map (·.keywords)

/-- The number of keywords. -/
def size (r : Registry) : Nat := r.index.size

/-- Whether there are no keywords. -/
def isEmpty (r : Registry) : Bool := r.index.isEmpty

/-- The number of modules. -/
def moduleCount (r : Registry) : Nat := r.modules.size

/-! ## Registration -/

/-- The complaint about the first keyword whose name is taken. -/
def conflict? (r : Registry) (module : ModuleRef) (keywords : List Keyword) :
    Option RegistryError :=
  keywords.findSome? fun k => (r.get? k.name).map fun old =>
    .keywordConflict k.name old.spec.module.text module.text

/-- The registry with one more keyword in its index. -/
def addToIndex (index : SortedMap String Keyword) (k : Keyword) : SortedMap String Keyword :=
  index.insert (Text.fold k.name) k

/-- The registry with one more module. -/
def add (r : Registry) (module : ModuleRef) (keywords : List Keyword) : Registry :=
  ⟨r.modules.insert module.id ⟨module, keywords⟩, keywords.foldl addToIndex r.index⟩

/-- The event of a registration. -/
def event (module : ModuleRef) (result : Except RegistryError Nat) : Log.Event :=
  match result with
  | .ok count => ⟨.info, "registry_register", "registry", "ok",
      [("target", module.text), ("keyword_count", Text.ofNat count)]⟩
  | .error e => ⟨.error, "registry_register", "registry", "error",
      [("target", module.text), ("error", e.message)]⟩

/-- Discovers the keywords of a module and registers them as the forest `forest`. -/
def register (r : Registry) (forest : Nat) (m : ModuleMetadata) : Registration :=
  let fail := fun (e : RegistryError) (before : List Log.Event) =>
    (⟨r, .error e, before ++ [event m.module (.error e)]⟩ : Registration)
  if r.modules.contains m.module.id then fail (.duplicateModule m.module.text) []
  else
    let discovered := Discovery.discover m
    let before := [Discovery.event m.module discovered]
    match discovered with
    | .error e => fail (.discovery e) before
    | .ok specs =>
      let keywords := (Forest.mk forest specs.values).keywords
      match r.conflict? m.module keywords with
      | some e => fail e before
      | none =>
        let count := keywords.length
        ⟨r.add m.module keywords, .ok count, before ++ [event m.module (.ok count)]⟩

/-- Registers stored modules one after the other, as the forests from `forest` on. -/
def registerModules (s : MetadataStore) (r : Registry) (forest : Nat) :
    List ModuleRef → StoreRegistration
  | [] => ⟨r, [], []⟩
  | m :: rest =>
    match s.load m.id with
    | .error e =>
      let others := registerModules s r (forest + 1) rest
      ⟨others.registry, ⟨m, .error (.metadata e)⟩ :: others.reports, others.events⟩
    | .ok metadata =>
      let first := r.register forest metadata
      let others := registerModules s first.registry (forest + 1) rest
      ⟨others.registry, ⟨m, first.result⟩ :: others.reports, first.events ++ others.events⟩

/-- Registers every module of a store. Only a store that cannot be listed is an error. -/
def registerStore (r : Registry) (forest : Nat) (s : MetadataStore) :
    Except StoreError StoreRegistration :=
  s.list.map (registerModules s r forest)

/-- Removes a module with its keywords. -/
def remove (r : Registry) (id : ModuleId) : Registry :=
  match r.modules.get? id with
  | none => r
  | some m => ⟨r.modules.erase id,
      m.keywords.foldl (fun index k => index.erase (Text.fold k.name)) r.index⟩

/-- Whether a module is registered. -/
def containsModule (r : Registry) (id : ModuleId) : Bool := r.modules.contains id

/-! ## Binding -/

/-- The outcome of binding registered modules one after the other. -/
structure BindAllReport where
  binder : Binder
  bindings : Bindings
  reports : List (ModuleRef × BindReport)

/-- Binds modules one after the other. -/
def bindModules (load : ModuleLoader) (binder : Binder) (bindings : Bindings) :
    List RegisteredModule → BindAllReport
  | [] => ⟨binder, bindings, []⟩
  | m :: rest =>
    let first := binder.bind bindings load m.keywords
    let others := bindModules load first.binder first.bindings rest
    ⟨others.binder, others.bindings, (m.module, first) :: others.reports⟩

/-- Binds every registered module. -/
def bindAll (r : Registry) (load : ModuleLoader) (binder : Binder) (bindings : Bindings) :
    BindAllReport :=
  bindModules load binder bindings r.modules.values

end Registry

end KeywordEngine
