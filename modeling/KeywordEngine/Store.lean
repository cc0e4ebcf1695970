import KeywordEngine.Log.Event
import KeywordEngine.Store.Name
import KeywordEngine.Store.Row

/-!
# The metadata store

A store keeps at most one module per identity and per name, names compared by `NameKey`. Writing a
module replaces those that share its identity or its name. A store also carries the version of its
schema; one later than `latestVersion` is refused.

* `MetadataStore.write`, `MetadataStore.delete`: changes.
* `MetadataStore.list`, `MetadataStore.find?`, `MetadataStore.load`: readings, which may meet rows
  that cannot be read.
-/

namespace KeywordEngine

open Store

/-- What the store compares of the name of a module. -/
def Store.StoredModule.nameKey (m : StoredModule) : NameKey := .ofName m.name

/-- The stored modules and the schema version. -/
structure MetadataStore where
  version : Int
  modules : List StoredModule

namespace MetadataStore

/-- The latest schema version. -/
def latestVersion : Nat := 1

/-- A new store at the latest schema version. -/
def empty : MetadataStore := ⟨latestVersion, []⟩

instance : Inhabited MetadataStore := ⟨empty⟩

/-! ## Schema versions -/

/-- A schema version as it is stored; what does not fit 32 bits counts as 0. -/
def fitVersion (version : Int) : Int :=
  if Int32.minValue.toInt ≤ version ∧ version ≤ Int32.maxValue.toInt then version else 0

/-- The store with a schema version written over its own. -/
def setVersion (s : MetadataStore) (version : Int) : MetadataStore :=
  { s with version := fitVersion version }

/-- The schema version. -/
def version? (s : MetadataStore) : Except StoreError Nat :=
  match s.version with
  | .ofNat n => .ok n
  | .negSucc _ => .error .unreadableVersion

/-- Brings the schema up to the latest version. A store that says its schema is older has the tables
nevertheless, so they cannot be created. -/
def migrate (s : MetadataStore) : Except StoreError Unit := do
  let version ← s.version?
  if version > latestVersion then throw (.newerVersion version latestVersion)
  if version < latestVersion then throw .tablesExist

/-! ## Changes -/

/-- Whether a stored module stands in the way of one with that identity and that name. -/
def conflicts (idText name : String) (m : StoredModule) : Bool :=
  m.idText == idText || m.nameKey == .ofName name

/-- Writes a module in place of those with its identity or its name. -/
def write (s : MetadataStore) (m : ModuleMetadata) : MetadataStore :=
  { s with
    modules := s.modules.filter (fun old => !conflicts m.module.id.text m.module.name old) ++
      [encodeModule m] }

/-- Whether a module has that identity. -/
def containsId (s : MetadataStore) (id : ModuleId) : Bool :=
  s.modules.any (·.idText == id.text)

/-- Removes the module with that identity. -/
def delete (s : MetadataStore) (id : ModuleId) : MetadataStore :=
  { s with modules := s.modules.filter (·.idText != id.text) }

/-- Adds a row for a module without types; its identity may be any text. -/
def addRow (s : MetadataStore) (idText name version : String) : Except StoreError MetadataStore :=
  if s.modules.any (conflicts idText name) then .error .rowTaken
  else .ok { s with modules := s.modules ++ [⟨idText, name, version, []⟩] }

/-! ## Readings -/

/-- The rows in the order of their names. -/
def rows (s : MetadataStore) : List StoredModule :=
  s.modules.mergeSort fun a b => a.nameKey.precedes b.nameKey

/-- The stored modules in the order of their names. -/
def list (s : MetadataStore) : Except StoreError (List ModuleRef) := s.rows.mapM decodeRef

/-- The module of that name. -/
def find? (s : MetadataStore) (name : String) : Except StoreError (Option ModuleRef) :=
  (s.modules.find? (·.nameKey == .ofName name)).mapM decodeRef

/-- The module with that identity. -/
def load (s : MetadataStore) (id : ModuleId) : Except StoreError ModuleMetadata :=
  match s.modules.find? (·.idText == id.text) with
  | some m => decodeModule m
  | none => .error (.notFound id.text)

/-! ## Events -/

/-- The events of opening a store kept in `mode`. -/
def openEvents (mode : String) : List Log.Event :=
  [⟨.info, "metadata_open", "db", "start", [("mode", mode)]⟩,
    ⟨.info, "metadata_open", "db", "ok", [("mode", mode)]⟩]

/-- The events of writing a module. -/
def writeEvents (m : ModuleMetadata) : List Log.Event :=
  [⟨.info, "metadata_write", "db", "start",
      [("target", m.module.text), ("types", Text.ofNat m.types.length)]⟩,
    ⟨.info, "metadata_write", "db", "ok", [("target", m.module.text)]⟩]

end MetadataStore

end KeywordEngine
