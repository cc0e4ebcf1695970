import KeywordEngine.Metadata.TypeName
import KeywordEngine.SortedMap
import KeywordEngine.Text.Case

/-!
# Type constraints

A parameter or property declares a type by name; the name, with the members of the enum it was
resolved to, gives the constraint that its values have to meet.

* `TypeConstraint.ofTypeName`: the constraint a type name stands for.
* `TypeConstraint.text`: the type name a constraint is shown as.
-/

namespace KeywordEngine

/-- What a parameter or property accepts. -/
inductive TypeConstraint where
  /-- Every value. -/
  | any
  | bool
  | int
  | string
  | hashtable
  /-- One of the members of a declared enum. -/
  | enum (name : String) (members : SortedSet)
  /-- A list of items that meet the inner constraint. -/
  | array (element : TypeConstraint)
  /-- A type the engine cannot check; every value. -/
  | unchecked (name : String)
  deriving Repr

namespace TypeConstraint

instance : Inhabited TypeConstraint := ⟨any⟩

/-- The constraint for a trimmed type name without array groups. A name the engine knows wins over
the members of an enum. -/
def ofElementName (name : String) (members : SortedSet) : TypeConstraint :=
  match Text.fold name with
  | "" | "object" => any
  | "bool" | "switch" => bool
  | "int" | "long" => int
  | "string" => string
  | "hashtable" => hashtable
  | _ => if members.isEmpty then unchecked name else enum name members

/-- `c` under `rank` layers of arrays. -/
def arrays (c : TypeConstraint) : Nat → TypeConstraint
  | 0 => c
  | rank + 1 => array (c.arrays rank)

/-- The constraint a type name stands for, `members` being those of the enum it was resolved to,
if any. -/
def ofTypeName (typeName : String) (members : SortedSet) : TypeConstraint :=
  let (rank, name) := TypeName.splitRank typeName
  (ofElementName name members).arrays rank

/-- The type name a constraint is shown as. -/
def text : TypeConstraint → String
  | any => "object"
  | bool => "bool"
  | int => "int"
  | string => "string"
  | hashtable => "hashtable"
  | enum name _ => name
  | array element => element.text ++ "[]"
  | unchecked name => name

/-- Whether a named argument without a value meets the constraint. -/
def isSwitch : TypeConstraint → Bool
  | bool => true
  | _ => false

end TypeConstraint

end KeywordEngine
