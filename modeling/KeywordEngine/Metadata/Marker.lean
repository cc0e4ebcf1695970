import KeywordEngine.Keyword.Spec
import KeywordEngine.Metadata.Record

/-!
# Marker attributes

The attributes by which types and members declare keywords, parameters and properties: their names,
the names of their arguments, and what a module writes for each declaration.
-/

namespace KeywordEngine.Marker

/-- The simple name of the type that every keyword type derives from. -/
def baseType : String := "Keyword"

/-- Marks a class as a keyword. -/
def keyword : String := "KeywordAttribute"

/-- Marks a member as a parameter. -/
def parameter : String := "KeywordParameterAttribute"

/-- Marks a member as a property of a hashtable body. -/
def property : String := "KeywordPropertyAttribute"

/-- The argument with the body mode of a keyword. -/
def bodyArgument : String := "Body"

/-- The argument with the use mode of a keyword. -/
def useArgument : String := "Use"

/-- The argument with the preferred parameter set of a keyword. -/
def defaultSetArgument : String := "DefaultParameterSetName"

/-- The argument that makes a parameter or property mandatory. -/
def mandatoryArgument : String := "Mandatory"

/-- The argument with the position of a parameter. -/
def positionArgument : String := "Position"

/-- The argument with the parameter set that a parameter marker speaks of. -/
def setArgument : String := "ParameterSetName"

/-- The field that holds the number of an enum; no member of it. -/
def enumBackingField : String := "value__"

/-- Every name that declarations use. -/
def names : List String :=
  [baseType, keyword, parameter, property, bodyArgument, useArgument, defaultSetArgument,
    mandatoryArgument, positionArgument, setArgument, enumBackingField]

/-- The position that stands for "not positional". -/
def notPositional : Int64 := -2147483648

/-- The body mode of a keyword that declares none. -/
def defaultBody : BodyMode := .command

/-- The use mode of a keyword that declares none. -/
def defaultUse : UseMode := .optionalMany

/-- The marker of a keyword with the given modes. -/
def ofKeyword (body : BodyMode) (use : UseMode) : AttributeRecord :=
  ⟨keyword, [(bodyArgument, .string body.text), (useArgument, .string use.text)]⟩

/-- How a position stands in a marker. -/
def encodePosition : Option UInt32 → Int64
  | none => notPositional
  | some p => p.toUInt64.toInt64

/-- The marker of a parameter in one parameter set, or in every set if none is named. -/
def ofParameter (m : SetMembership) (set : Option String) : AttributeRecord :=
  ⟨parameter, [(mandatoryArgument, .bool m.mandatory),
    (positionArgument, .int (encodePosition m.position)),
    (setArgument, .string (set.getD allSets))]⟩

/-- The marker of a property. -/
def ofProperty (mandatory : Bool) : AttributeRecord :=
  ⟨property, [(mandatoryArgument, .bool mandatory)]⟩

end KeywordEngine.Marker
