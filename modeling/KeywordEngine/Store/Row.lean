import KeywordEngine.Metadata.Record
import KeywordEngine.Store.Error

/-!
# Stored rows

Modules as the store keeps them: kinds and argument values are texts, flags are numbers. Records
are encoded when they are written and decoded when they are read.

* `decodeTypes_encodeTypes`: reading what was written gives the records back.
* Decoding goes through the types of a level in order, each completely before the next: its kind,
  its attributes, its members (each: kind, then attributes), its nested types. The first row that
  cannot be read ends it.
-/

namespace KeywordEngine.Store

/-- A stored attribute argument. -/
structure StoredArgument where
  name : String
  kind : String
  value : String
  deriving DecidableEq, Repr

/-- A stored attribute. -/
structure StoredAttribute where
  name : String
  arguments : List StoredArgument
  deriving DecidableEq, Repr

/-- A stored member. -/
structure StoredMember where
  name : String
  signature : String
  kind : String
  settable : Int
  attributes : List StoredAttribute
  deriving DecidableEq, Repr

/-- A stored type with the types nested in it. -/
structure StoredType where
  name : String
  base : Option String
  kind : String
  attributes : List StoredAttribute
  members : List StoredMember
  enumFields : List String
  nested : List StoredType
  deriving Repr

/-- A stored module. -/
structure StoredModule where
  idText : String
  name : String
  version : String
  types : List StoredType
  deriving Repr

/-! ## Writing -/

/-- The stored kind and text of an argument value. -/
def encodeArgument : String × AttributeValue → StoredArgument
  | (name, .bool b) => ⟨name, "bool", Value.boolText b⟩
  | (name, .int n) => ⟨name, "int", Text.ofInt n.toInt⟩
  | (name, .string s) => ⟨name, "string", s⟩

/-- The row of an attribute. -/
def encodeAttribute (a : AttributeRecord) : StoredAttribute :=
  ⟨a.name, a.arguments.map encodeArgument⟩

/-- The row of a member. -/
def encodeMember (m : MemberRecord) : StoredMember :=
  ⟨m.name, m.signature, m.kind.text, if m.settable then 1 else 0, m.attributes.map encodeAttribute⟩

mutual
/-- The row of a type. -/
def encodeType : TypeRecord → StoredType
  | ⟨name, base, kind, attributes, members, enumFields, nested⟩ =>
    ⟨name, base, kind.text, attributes.map encodeAttribute, members.map encodeMember, enumFields,
      encodeTypes nested⟩

/-- The rows of the types of one level. -/
def encodeTypes : List TypeRecord → List StoredType
  | [] => []
  | t :: rest => encodeType t :: encodeTypes rest
end

/-- The rows of a module. -/
def encodeModule (m : ModuleMetadata) : StoredModule :=
  ⟨m.module.id.text, m.module.name, m.module.version, encodeTypes m.types⟩

/-! ## Reading -/

/-- The word for a truth value, exactly. -/
def readBool? : String → Option Bool
  | "true" => some true
  | "false" => some false
  | _ => none

/-- The value that a kind and a text stand for. -/
def readValue? (kind text : String) : Option AttributeValue :=
  match kind with
  | "bool" => (readBool? text).map .bool
  | "int" => (Text.int64? text).map .int
  | "string" => some (.string text)
  | _ => none

/-- Reads an argument. -/
def decodeArgument (a : StoredArgument) : Except StoreError (String × AttributeValue) :=
  match readValue? a.kind a.value with
  | some v => .ok (a.name, v)
  | none => .error (.badArgument a.name a.kind a.value)

/-- Reads an attribute. -/
def decodeAttribute (a : StoredAttribute) : Except StoreError AttributeRecord := do
  return ⟨a.name, ← a.arguments.mapM decodeArgument⟩

/-- Reads a member. -/
def decodeMember (m : StoredMember) : Except StoreError MemberRecord := do
  match MemberKind.ofText? m.kind with
  | none => throw (.badMemberKind m.name m.kind)
  | some kind =>
    let attributes ← m.attributes.mapM decodeAttribute
    return ⟨m.name, m.signature, kind, m.settable != 0, attributes⟩

mutual
/-- Reads a type. -/
def decodeType : StoredType → Except StoreError TypeRecord
  | ⟨name, base, kind, attributes, members, enumFields, nested⟩ => do
    match TypeKind.ofText? kind with
    | none => throw (.badTypeKind name kind)
    | some kind =>
      let attributes ← attributes.mapM decodeAttribute
      let members ← members.mapM decodeMember
      let nested ← decodeTypes nested
      return ⟨name, base, kind, attributes, members, enumFields, nested⟩

/-- Reads the types of one level. -/
def decodeTypes : List StoredType → Except StoreError (List TypeRecord)
  | [] => return []
  | t :: rest => do
    let first ← decodeType t
    return first :: (← decodeTypes rest)
end

/-- Reads the reference of a module. -/
def decodeRef (m : StoredModule) : Except StoreError ModuleRef :=
  match ModuleId.ofText? m.idText with
  | some id => .ok ⟨id, m.name, m.version⟩
  | none => .error (.badModuleId m.idText)

/-- Reads a module. -/
def decodeModule (m : StoredModule) : Except StoreError ModuleMetadata := do
  return ⟨← decodeRef m, ← decodeTypes m.types⟩

/-! ## Reading what was written -/

/-- If every item is read back, so is the list. -/
private theorem mapM_map_eq_ok {α β ε : Type} {encode : α → β} {decode : β → Except ε α}
    (h : ∀ a, decode (encode a) = .ok a) (l : List α) :
    (l.map encode).mapM decode = .ok l := by
  induction l with
  | nil => rfl
  | cons a rest ih =>
    rw [List.map_cons, List.mapM_cons, h, ih]
    rfl

theorem decodeArgument_encodeArgument (a : String × AttributeValue) :
    decodeArgument (encodeArgument a) = .ok a := by
  obtain ⟨name, value⟩ := a
  cases value with
  | bool b => cases b <;> rfl
  | int n => simp [decodeArgument, encodeArgument, readValue?, Text.int64?_ofInt]
  | string s => rfl

theorem decodeAttribute_encodeAttribute (a : AttributeRecord) :
    decodeAttribute (encodeAttribute a) = .ok a := by
  rw [decodeAttribute, encodeAttribute, mapM_map_eq_ok decodeArgument_encodeArgument]
  rfl

theorem decodeMember_encodeMember (m : MemberRecord) : decodeMember (encodeMember m) = .ok m := by
  obtain ⟨name, signature, kind, settable, attributes⟩ := m
  cases kind <;> cases settable <;>
    simp [decodeMember, encodeMember, MemberKind.ofText?, MemberKind.text,
      mapM_map_eq_ok decodeAttribute_encodeAttribute, bind, Except.bind, pure, Except.pure]

mutual
theorem decodeType_encodeType (t : TypeRecord) : decodeType (encodeType t) = .ok t := by
  obtain ⟨name, base, kind, attributes, members, enumFields, nested⟩ := t
  cases kind <;>
    simp [decodeType, encodeType, TypeKind.ofText?, TypeKind.text,
      mapM_map_eq_ok decodeAttribute_encodeAttribute, mapM_map_eq_ok decodeMember_encodeMember,
      decodeTypes_encodeTypes nested, bind, Except.bind, pure, Except.pure]

/-- Reading the types that were written gives them back. -/
theorem decodeTypes_encodeTypes (l : List TypeRecord) : decodeTypes (encodeTypes l) = .ok l := by
  cases l with
  | nil => rfl
  | cons t rest =>
    simp [decodeTypes, encodeTypes, decodeType_encodeType t, decodeTypes_encodeTypes rest, bind,
      Except.bind, pure, Except.pure]
end

theorem decodeRef_encodeModule (m : ModuleMetadata) : decodeRef (encodeModule m) = .ok m.module := by
  simp [decodeRef, encodeModule, ModuleId.ofText?_text]

/-- Reading the module that was written gives it back. -/
theorem decodeModule_encodeModule (m : ModuleMetadata) : decodeModule (encodeModule m) = .ok m := by
  rw [decodeModule, decodeRef_encodeModule, encodeModule, decodeTypes_encodeTypes]
  rfl

end KeywordEngine.Store
