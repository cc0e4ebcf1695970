import KeywordEngine.Constraint.Coercion
import KeywordEngine.Script

/-!
# Fragments

A fragment is the list of instructions that carries out a script. The arguments and properties of
an invocation stand in it as plans: a constant that already meets its constraint, or an expression
to be evaluated and fitted when the instruction runs.

* `Operand.plan`: constant expressions are fitted to their constraint at once.
-/

namespace KeywordEngine

/-- Where the value of a parameter or property comes from. -/
inductive Operand where
  /-- A value that already meets the constraint. -/
  | constant (v : Value)
  /-- An expression evaluated and fitted when the instruction runs. -/
  | deferred (e : Expr)

/-- The operand for an expression. A constant one is fitted to the constraint now. -/
def Operand.plan (e : Expr) (c : TypeConstraint) : Except CoercionError Operand :=
  match e.constant? with
  | some v => (c.coerce v).map .constant
  | none => .ok (.deferred e)

/-- How one parameter or property gets its value. -/
structure Plan where
  /-- The declared name of the parameter or property. -/
  target : String
  constraint : TypeConstraint
  operand : Operand

/-- One step of a fragment. -/
inductive Instruction where
  /-- Makes the pending instance of a keyword and gives it its arguments. -/
  | instantiate (keyword : Keyword) (set : String) (arguments : List Plan)
  /-- Gives the pending instance its properties, all or none. -/
  | assignProperties (properties : List Plan)
  /-- Opens a scope for the pending instance. -/
  | enterScope
  /-- Closes the innermost scope. -/
  | leaveScope
  /-- Sets a variable. -/
  | assign (target : String) (value : Expr)
  /-- Evaluates an expression and drops its value. -/
  | evaluate (e : Expr)

/-- Whether the instruction opens or closes a scope. -/
def Instruction.isScopeOperation : Instruction → Bool
  | enterScope | leaveScope => true
  | instantiate .. | assignProperties _ | assign .. | evaluate _ => false

/-- Instructions in the order in which they run. -/
abbrev Fragment := List Instruction

/-- The number of instructions that open or close a scope. -/
def Fragment.scopeOperationCount (f : Fragment) : Nat := f.countP (·.isScopeOperation)

end KeywordEngine
