import KeywordEngine.Text.Blank
import KeywordEngine.Text.Case

/-!
# Body and use modes

The two modes of a keyword: what follows its name (`BodyMode`) and how often it may stand in one
enclosing body (`UseMode`). Each mode has one spelling, which is read without regard to case and to
blanks around it.
-/

namespace KeywordEngine

/-- What follows the name and the arguments of a keyword. -/
inductive BodyMode where
  /-- Nothing. -/
  | command
  /-- A hashtable that assigns properties. -/
  | hashtable
  /-- A block of statements. -/
  | scriptBlock
  deriving DecidableEq, Repr, Inhabited

namespace BodyMode

/-- The spelling of a mode. -/
def text : BodyMode → String
  | command => "Command"
  | hashtable => "Hashtable"
  | scriptBlock => "ScriptBlock"

/-- Every mode. -/
def all : List BodyMode := [command, hashtable, scriptBlock]

/-- Reads the spelling of a mode. -/
def ofText? (s : String) : Option BodyMode := all.find? (Text.sameName ·.text (Text.trim s))

end BodyMode

/-- How often a keyword may stand in one enclosing body. -/
inductive UseMode where
  | optional
  | optionalMany
  | required
  | requiredMany
  deriving DecidableEq, Repr, Inhabited

namespace UseMode

/-- The spelling of a mode. -/
def text : UseMode → String
  | optional => "Optional"
  | optionalMany => "OptionalMany"
  | required => "Required"
  | requiredMany => "RequiredMany"

/-- Every mode. -/
def all : List UseMode := [optional, optionalMany, required, requiredMany]

/-- Reads the spelling of a mode. -/
def ofText? (s : String) : Option UseMode := all.find? (Text.sameName ·.text (Text.trim s))

/-- Whether the keyword has to stand there at least once. -/
def isRequired : UseMode → Bool
  | required | requiredMany => true
  | optional | optionalMany => false

/-- Whether the keyword may stand there more than once. -/
def allowsMany : UseMode → Bool
  | optionalMany | requiredMany => true
  | optional | required => false

end UseMode

end KeywordEngine
