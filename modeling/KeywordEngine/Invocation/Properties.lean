import KeywordEngine.Fragment
import KeywordEngine.Invocation.Error

/-!
# Hashtable bodies

The entries of a hashtable body are planned as assignments to the properties of the keyword, one
plan per entry in entry order. Each key is a literal text that names a property no earlier entry
names, and every mandatory property is named.
-/

namespace KeywordEngine

/-- How a key that is no literal text is shown. -/
def describeKey : Expr → String
  | .literal v => v.text ++ " (" ++ v.kindName ++ ")"
  | .readVariable name => "$" ++ name
  | .array _ => "array"
  | .hashtable _ => "hashtable"
  | .scriptBlock _ _ => "scriptblock"

/-- The text of a key that is a literal text. -/
def literalKey? : Expr → Option String
  | .literal (.string s) => some s
  | _ => none

/-- The plan for one entry, after the plans `before`. -/
def planEntry (k : KeywordSpec) (before : List Plan) (entry : HashtableEntry) :
    Except InvocationError Plan := do
  let reject := fun (reason : Rejection) => (⟨k.name, entry.span, reason⟩ : InvocationError)
  match literalKey? entry.key with
  | none => throw (reject (.nonStringKey (describeKey entry.key)))
  | some key =>
    match k.property? key with
    | none => throw (reject (.unknownProperty key))
    | some p =>
      if before.any (·.target == p.name) then throw (reject (.duplicateProperty p.name))
      match Operand.plan entry.value p.constraint with
      | .ok operand => return ⟨p.name, p.constraint, operand⟩
      | .error error => throw (reject (.propertyTypeMismatch p.name error))

/-- The plans for entries, after the plans `before`. -/
def planEntries (k : KeywordSpec) (before : List Plan) :
    List HashtableEntry → Except InvocationError (List Plan)
  | [] => .ok before
  | entry :: rest => do
    let plan ← planEntry k before entry
    planEntries k (before ++ [plan]) rest

/-- The plans for the entries of a hashtable body of an invocation at `span`. -/
def planProperties (k : KeywordSpec) (entries : List HashtableEntry) (span : Span) :
    Except InvocationError (List Plan) := do
  let plans ← planEntries k [] entries
  match k.properties.find? fun p => p.mandatory && !plans.any (·.target == p.name) with
  | some p => throw ⟨k.name, span, .missingMandatoryProperty p.name⟩
  | none => return plans

end KeywordEngine
