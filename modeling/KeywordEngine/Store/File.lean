import KeywordEngine.Json.Reader
import KeywordEngine.Store

/-!
# Store files

A store is kept in a file as one JSON document with its schema version and its rows. Reading asks
for every field and for nothing else; what the rows say is not checked until they are used.

* `MetadataStore.fileText`: the text of the file.
* `MetadataStore.ofFileText?`: reads it; none for a text that is no store file.
-/

namespace KeywordEngine

open Store

/-! ## Writing -/

/-- The fields of an argument. -/
private def argumentJson (a : StoredArgument) : Json :=
  .object [("name", .string a.name), ("kind", .string a.kind), ("value", .string a.value)]

/-- The fields of an attribute. -/
private def attributeJson (a : StoredAttribute) : Json :=
  .object [("name", .string a.name), ("arguments", .array (a.arguments.map argumentJson))]

/-- The fields of a member. -/
private def memberJson (m : StoredMember) : Json :=
  .object [("name", .string m.name), ("signature", .string m.signature), ("kind", .string m.kind),
    ("settable", .int m.settable), ("attributes", .array (m.attributes.map attributeJson))]

mutual
/-- The fields of a type. -/
private def typeJson : StoredType → Json
  | ⟨name, base, kind, attributes, members, enumFields, nested⟩ =>
    .object [("name", .string name), ("base", (base.map Json.string).getD .null),
      ("kind", .string kind), ("attributes", .array (attributes.map attributeJson)),
      ("members", .array (members.map memberJson)),
      ("enum_fields", .array (enumFields.map .string)), ("nested", .array (typesJson nested))]

/-- The documents of types. -/
private def typesJson : List StoredType → List Json
  | [] => []
  | t :: rest => typeJson t :: typesJson rest
end

/-- The fields of a module. -/
private def moduleJson (m : StoredModule) : Json :=
  .object [("id", .string m.idText), ("name", .string m.name), ("version", .string m.version),
    ("types", .array (typesJson m.types))]

/-- The text of the file that keeps a store. -/
def MetadataStore.fileText (s : MetadataStore) : String :=
  (Json.object [("schema_version", .int s.version),
    ("modules", .array (s.modules.map moduleJson))]).pretty ++ "\n"

/-! ## Reading -/

/-- The items in a field, each read in the same way. -/
private def listOf? {α : Type} (read? : Json → Option α) (j : Json) (name : String) :
    Option (List α) := do
  (← (← j.field? name).items?).mapM read?

/-- Reads an argument. -/
private def readArgument? (j : Json) : Option StoredArgument := do
  return ⟨← j.text? "name", ← j.text? "kind", ← j.text? "value"⟩

/-- Reads an attribute. -/
private def readAttribute? (j : Json) : Option StoredAttribute := do
  return ⟨← j.text? "name", ← listOf? readArgument? j "arguments"⟩

/-- Reads a member. -/
private def readMember? (j : Json) : Option StoredMember := do
  return ⟨← j.text? "name", ← j.text? "signature", ← j.text? "kind",
    ← (← j.field? "settable").int?, ← listOf? readAttribute? j "attributes"⟩

/-- Reads the name of a base type, or null. -/
private def readBase? : Json → Option (Option String)
  | .null => some none
  | .string s => some (some s)
  | _ => none

mutual
/-- Reads a type. -/
private def readType? : Json → Option StoredType
  | .object fields => do
    let j := Json.object fields
    let nested ← readNested? fields
    return ⟨← j.text? "name", ← (j.field? "base").bind readBase?, ← j.text? "kind",
      ← listOf? readAttribute? j "attributes", ← listOf? readMember? j "members",
      ← listOf? Json.string? j "enum_fields", nested⟩
  | _ => none

/-- Reads the types in the first field with that role. -/
private def readNested? : List (String × Json) → Option (List StoredType)
  | [] => none
  | (name, value) :: rest => if name = "nested" then readTypes? value else readNested? rest

/-- Reads an array of types. -/
private def readTypes? : Json → Option (List StoredType)
  | .array items => readTypeList? items
  | _ => none

/-- Reads types one after the other. -/
private def readTypeList? : List Json → Option (List StoredType)
  | [] => some []
  | j :: rest => do
    let first ← readType? j
    return first :: (← readTypeList? rest)
end

/-- Reads a module. -/
private def readModule? (j : Json) : Option StoredModule := do
  return ⟨← j.text? "id", ← j.text? "name", ← j.text? "version",
    ← (j.field? "types").bind readTypes?⟩

/-- Reads the text of a store file. -/
def MetadataStore.ofFileText? (text : String) : Option MetadataStore := do
  let j ← Json.ofText? text
  let version ← (← j.field? "schema_version").int?
  return ⟨version, ← listOf? readModule? j "modules"⟩

end KeywordEngine
