import KeywordEngine.Metadata.TypeName
import KeywordEngine.Module
import KeywordEngine.Text.Decimal
import KeywordEngine.Value

/-!
# Metadata records

What a module publishes about its types: classes and enums with their base type, attributes,
members and nested types. Records are plain data; reading them runs no code of the module.
-/

namespace KeywordEngine

/-- The kind of a type. -/
inductive TypeKind where
  | classType
  | enumType
  deriving DecidableEq, Repr, Inhabited

/-- The stored word for a kind of type. -/
def TypeKind.text : TypeKind → String
  | .classType => "class"
  | .enumType => "enum"

/-- Reads the stored word, which is told apart by case. -/
def TypeKind.ofText? : String → Option TypeKind
  | "class" => some .classType
  | "enum" => some .enumType
  | _ => none

/-- The kind of a member. -/
inductive MemberKind where
  | field
  | property
  deriving DecidableEq, Repr, Inhabited

/-- The stored word for a kind of member. -/
def MemberKind.text : MemberKind → String
  | .field => "field"
  | .property => "property"

/-- Reads the stored word, which is told apart by case. -/
def MemberKind.ofText? : String → Option MemberKind
  | "field" => some .field
  | "property" => some .property
  | _ => none

/-- The value of a named attribute argument. -/
inductive AttributeValue where
  | bool (b : Bool)
  | int (n : Int64)
  | string (s : String)
  deriving DecidableEq, Repr

/-- The value without quotes. -/
def AttributeValue.text : AttributeValue → String
  | bool b => Value.boolText b
  | int n => Text.ofInt n.toInt
  | string s => s

/-- An attribute with its named arguments. -/
structure AttributeRecord where
  name : String
  arguments : List (String × AttributeValue)
  deriving DecidableEq, Repr

namespace AttributeRecord

/-- Whether the attribute is the marker of that name, in whatever namespace. -/
def is (a : AttributeRecord) (marker : String) : Bool := TypeName.simpleName a.name == marker

/-- The first argument of that name, without regard to case. -/
def argument? (a : AttributeRecord) (name : String) : Option AttributeValue :=
  (a.arguments.find? (Text.sameName ·.1 name)).map (·.2)

end AttributeRecord

/-- A member of a class. -/
structure MemberRecord where
  name : String
  /-- The raw signature of its type. -/
  signature : String
  kind : MemberKind
  settable : Bool
  attributes : List AttributeRecord
  deriving DecidableEq, Repr

/-- A type with the types nested in it. -/
structure TypeRecord where
  name : String
  /-- The name of the type it derives from. -/
  base : Option String
  kind : TypeKind
  attributes : List AttributeRecord
  members : List MemberRecord
  /-- The fields of an enum, its numeric backing field included. -/
  enumFields : List String
  nested : List TypeRecord
  deriving Repr

/-- The first attribute that is the marker of that name. -/
def TypeRecord.attribute? (t : TypeRecord) (marker : String) : Option AttributeRecord :=
  t.attributes.find? (·.is marker)

/-- The types of a module. -/
structure ModuleMetadata where
  module : ModuleRef
  types : List TypeRecord
  deriving Repr

end KeywordEngine
