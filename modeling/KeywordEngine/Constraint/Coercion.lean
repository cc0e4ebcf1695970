import KeywordEngine.Constraint
import KeywordEngine.Text.Decimal
import KeywordEngine.Value

/-!
# Coercion

Fitting a value to a constraint. Numbers and the words `true` and `false` become truth values,
decimal texts become numbers, numbers and truth values become texts, a text that names an enum
member becomes that member in its declared spelling, and a lone value becomes an array of one.

* `coerce_eq_ok_iff`, `coerce_eq_error_iff`: coercion succeeds with what `coerce?` finds, and fails
  with an error that names the outermost constraint and the whole value.
-/

namespace KeywordEngine

/-- A value does not meet a constraint. -/
structure CoercionError where
  /-- The type asked for. -/
  expected : String
  /-- The kind of the value. -/
  found : String
  /-- The text of the value. -/
  value : String
  deriving DecidableEq, Repr

/-- The error as shown to the user. -/
def CoercionError.message (e : CoercionError) : String :=
  "cannot convert " ++ e.found ++ " value " ++ e.value ++ " to type `" ++ e.expected ++ "`"

namespace TypeConstraint

/-- The truth value that a value stands for. -/
def boolOf? : Value → Option Bool
  | .bool b => some b
  | .int n => some (n != 0)
  | .string s =>
    if Text.sameName s "true" then some true
    else if Text.sameName s "false" then some false
    else none
  | _ => none

/-- The number that a value stands for. -/
def intOf? : Value → Option Int64
  | .int n => some n
  | .string s => Text.int64? (Text.trim s)
  | _ => none

/-- The text that a value stands for. -/
def stringOf? : Value → Option String
  | .string s => some s
  | .int n => some (Text.ofInt n.toInt)
  | .bool b => some (Value.boolText b)
  | _ => none

/-- The first member, in their order, that a value names. -/
def memberOf? (members : SortedSet) : Value → Option String
  | .string s => members.keys.find? (Text.sameName · (Text.trim s))
  | _ => none

/-- The value that meets the constraint and that `v` stands for, if there is one. -/
def coerce? : TypeConstraint → Value → Option Value
  | any, v => some v
  | unchecked _, v => some v
  | bool, v => (boolOf? v).map .bool
  | int, v => (intOf? v).map .int
  | string, v => (stringOf? v).map .string
  | hashtable, .hashtable entries => some (.hashtable entries)
  | hashtable, _ => none
  | enum _ members, v => (memberOf? members v).map .string
  | array element, .array items => (items.mapM element.coerce?).map .array
  | array _, .null => none
  | array element, v => (element.coerce? v).map fun w => .array [w]

/-- The complaint that `v` does not meet `c`. -/
def mismatch (c : TypeConstraint) (v : Value) : CoercionError := ⟨c.text, v.kindName, v.text⟩

/-- Fits a value to the constraint. -/
def coerce (c : TypeConstraint) (v : Value) : Except CoercionError Value :=
  match c.coerce? v with
  | some w => .ok w
  | none => .error (c.mismatch v)

theorem coerce_eq_ok_iff {c : TypeConstraint} {v w : Value} :
    c.coerce v = .ok w ↔ c.coerce? v = some w := by
  unfold coerce
  cases c.coerce? v <;> simp

theorem coerce_eq_error_iff {c : TypeConstraint} {v : Value} {e : CoercionError} :
    c.coerce v = .error e ↔ c.coerce? v = none ∧ e = c.mismatch v := by
  unfold coerce
  cases c.coerce? v <;> simp [eq_comm]

end TypeConstraint

end KeywordEngine
