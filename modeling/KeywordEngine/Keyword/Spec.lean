import KeywordEngine.Constraint
import KeywordEngine.Keyword.Mode
import KeywordEngine.Module

/-!
# Keyword specifications

The static description of a keyword: its modes, the parameters and properties it takes and the
keywords nested in it.

A parameter takes part in named parameter sets, each time with a position (or none) and a mandatory
flag. The name `allSets` stands for every set: what a parameter says of it applies in each set of
which the parameter says nothing else (`ParameterSpec.inSet?`).
-/

namespace KeywordEngine

/-- The parameter-set name that stands for every parameter set. -/
def allSets : String := "__AllParameterSets"

/-- How a parameter takes part in a parameter set. -/
structure SetMembership where
  /-- The place among the positional arguments; none if the parameter is only named. -/
  position : Option UInt32
  mandatory : Bool
  deriving DecidableEq, Repr

/-- A parameter of a keyword. -/
structure ParameterSpec where
  name : String
  typeName : String
  /-- The members of the declared enum that the type name denotes; empty for any other type. -/
  members : SortedSet
  /-- The memberships by parameter-set name. -/
  sets : SortedMap String SetMembership

namespace ParameterSpec

/-- How the parameter takes part in `set`: as it says of that set, or else of every set. -/
def inSet? (p : ParameterSpec) (set : String) : Option SetMembership :=
  p.sets.get? set <|> p.sets.get? allSets

/-- The position of the parameter in `set`. -/
def position? (p : ParameterSpec) (set : String) : Option UInt32 :=
  (p.inSet? set).bind (·.position)

/-- Whether the parameter has to be given in `set`. -/
def mandatoryIn (p : ParameterSpec) (set : String) : Bool :=
  (p.inSet? set).any (·.mandatory)

/-- What the parameter accepts. -/
def constraint (p : ParameterSpec) : TypeConstraint := .ofTypeName p.typeName p.members

end ParameterSpec

/-- A property of a keyword with a hashtable body. -/
structure PropertySpec where
  name : String
  typeName : String
  mandatory : Bool
  /-- The members of the declared enum that the type name denotes; empty for any other type. -/
  members : SortedSet

/-- What the property accepts. -/
def PropertySpec.constraint (p : PropertySpec) : TypeConstraint := .ofTypeName p.typeName p.members

/-- The static description of one keyword. -/
structure KeywordSpec where
  name : String
  body : BodyMode
  use : UseMode
  /-- The parameter set preferred when several fit. -/
  defaultSet : Option String
  parameters : List ParameterSpec
  properties : List PropertySpec
  /-- The keywords nested in this one. -/
  children : List KeywordSpec
  /-- Whether the keyword is itself nested in another. -/
  nested : Bool
  /-- The module that declares the keyword. -/
  module : ModuleRef

namespace KeywordSpec

/-- The first nested keyword of that name. -/
def child? (k : KeywordSpec) (name : String) : Option KeywordSpec :=
  k.children.find? (Text.sameName ·.name name)

/-- The first parameter of that name. -/
def parameter? (k : KeywordSpec) (name : String) : Option ParameterSpec :=
  k.parameters.find? (Text.sameName ·.name name)

/-- The first property of that name. -/
def property? (k : KeywordSpec) (name : String) : Option PropertySpec :=
  k.properties.find? (Text.sameName ·.name name)

/-- The names of the parameter sets that parameters declare, each once, in the order of their first
declaration. -/
def setNames (k : KeywordSpec) : List String :=
  ((k.parameters.flatMap (·.sets.keys)).filter (· != allSets)).eraseDups

end KeywordSpec

end KeywordEngine
