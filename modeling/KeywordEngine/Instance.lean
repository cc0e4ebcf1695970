import KeywordEngine.Keyword
import KeywordEngine.Value

/-!
# Keyword instances

One running invocation of a keyword with the values of its parameters and properties, kept under
their declared names, and the frame that stands for it on the scope stack.
-/

namespace KeywordEngine

/-- Values by declared name. -/
abbrev ValueMap := SortedMap String Value

/-- The value of that exact name, or else the first whose name is the same but for case. -/
def ValueMap.lookup? (m : ValueMap) (name : String) : Option Value :=
  m.get? name <|> (m.toList.find? (Text.sameName ·.1 name)).map (·.2)

/-- A running invocation. -/
structure Instance where
  keyword : Keyword
  /-- The parameter set in use. -/
  set : String
  parameters : ValueMap
  properties : ValueMap

namespace Instance

/-- An instance without values. -/
def new (keyword : Keyword) (set : String) : Instance := ⟨keyword, set, .empty, .empty⟩

/-- The name of the keyword. -/
abbrev name (i : Instance) : String := i.keyword.name

/-- The value of a parameter. -/
def parameter? (i : Instance) (name : String) : Option Value := i.parameters.lookup? name

/-- The value of a property. -/
def property? (i : Instance) (name : String) : Option Value := i.properties.lookup? name

/-- Gives a parameter its value. -/
def setParameter (i : Instance) (name : String) (v : Value) : Instance :=
  { i with parameters := i.parameters.insert name v }

/-- Gives properties their values. -/
def setProperties (i : Instance) (values : List (String × Value)) : Instance :=
  { i with properties := i.properties.insertMany values }

end Instance

/-- An invocation whose scope is open. -/
structure Frame where
  running : Instance
  /-- What its enter hook returned; none without such a hook. -/
  entry : Option Value

end KeywordEngine
