import KeywordEngine.Fragment
import KeywordEngine.Scope

/-!
# Execution

Fragments run against a context: the open scopes, the variables, the results of the outermost scopes
closed so far, and the instance under construction. Variable names are compared without regard to
case.

* `execute`: runs a fragment to its end or to the first error. After an error the scopes that the
  run opened and did not close are dropped without running their leave hooks, and no instance is
  under construction.
-/

namespace KeywordEngine

/-- Why a fragment stops. -/
inductive ExecutionError where
  | scope (error : ScopeError)
  | coercion (target : String) (error : CoercionError)
  | unknownVariable (name : String)
  | noPendingInstance
  | unsupportedExpression (kind : String)
  deriving DecidableEq, Repr

namespace ExecutionError

/-- The error as shown to the user. -/
def message : ExecutionError → String
  | scope error => error.message
  | coercion target error => "`" ++ target ++ "`: " ++ error.message
  | unknownVariable name => "variable `$" ++ name ++ "` is not defined"
  | noPendingInstance => "no keyword instance is pending"
  | unsupportedExpression kind => kind ++ " expressions cannot be evaluated here"

/-- The error of a hook behind the failure. -/
def hookError? : ExecutionError → Option HookError
  | scope (.hook error) => some error
  | _ => none

end ExecutionError

/-! ## Variables -/

/-- Variables by folded name. -/
abbrev Variables := SortedMap String Value

namespace Variables

/-- The value of a variable. -/
def read? (vars : Variables) (name : String) : Option Value := vars.get? (Text.fold name)

/-- Sets a variable. -/
def assign (vars : Variables) (name : String) (v : Value) : Variables :=
  vars.insert (Text.fold name) v

end Variables

section Evaluation

variable (vars : Variables)

mutual
/-- The value of an expression. -/
def evaluate : Expr → Except ExecutionError Value
  | .literal v => .ok v
  | .readVariable name =>
    match vars.read? name with
    | some v => .ok v
    | none => .error (.unknownVariable name)
  | .array items => do return .array (← evaluateItems items)
  | .hashtable entries => do return .hashtable (← evaluateEntries entries)
  | .scriptBlock _ _ => .error (.unsupportedExpression "scriptblock")

/-- The values of the items of an array, from the first on. -/
def evaluateItems : List Expr → Except ExecutionError (List Value)
  | [] => .ok []
  | e :: rest => do
    let v ← evaluate e
    return v :: (← evaluateItems rest)

/-- The values of the entries of a hashtable, each key before its value. -/
def evaluateEntries : List HashtableEntry → Except ExecutionError (List (Value × Value))
  | [] => .ok []
  | ⟨key, value, _⟩ :: rest => do
    let k ← evaluate key
    let v ← evaluate value
    return (k, v) :: (← evaluateEntries rest)
end

/-- The value that a plan gives to its target. -/
def Plan.resolve (p : Plan) : Except ExecutionError Value :=
  match p.operand with
  | .constant v => .ok v
  | .deferred e => do
    let v ← evaluate vars e
    (p.constraint.coerce v).mapError (.coercion p.target)

/-- The targets of plans with the values they get. -/
def resolvePlans : List Plan → Except ExecutionError (List (String × Value))
  | [] => .ok []
  | p :: rest => do
    let v ← p.resolve vars
    return (p.target, v) :: (← resolvePlans rest)

end Evaluation

/-! ## Steps -/

/-- What a run works on. -/
structure ExecutionContext where
  scope : ScopeStack
  vars : Variables
  /-- The results of the outermost scopes in the order in which they closed. -/
  output : List (Option Value)
  /-- The instance under construction. -/
  pending : Option Instance

namespace ExecutionContext

/-- A context in which nothing happened. -/
def empty : ExecutionContext := ⟨.empty, .empty, [], none⟩

instance : Inhabited ExecutionContext := ⟨empty⟩

/-- Sets a variable. -/
def setVariable (c : ExecutionContext) (name : String) (v : Value) : ExecutionContext :=
  { c with vars := c.vars.assign name v }

/-- The value of a variable. -/
def value? (c : ExecutionContext) (name : String) : Option Value := c.vars.read? name

/-- The context without its output. -/
def clearOutput (c : ExecutionContext) : ExecutionContext := { c with output := [] }

/-- An outcome that calls no hooks. -/
private def quiet (c : ExecutionContext) (r : Except ExecutionError ExecutionContext) :
    Outcome ExecutionContext ExecutionError Unit :=
  match r with
  | .ok next => ⟨next, [], .ok ()⟩
  | .error e => ⟨c, [], .error e⟩

/-- The pending instance of a keyword with its arguments. -/
def instantiate (vars : Variables) (keyword : Keyword) (set : String) (arguments : List Plan) :
    Except ExecutionError Instance := do
  let values ← resolvePlans vars arguments
  return values.foldl (fun i v => i.setParameter v.1 v.2) (.new keyword set)

/-- Carries out one instruction. -/
def step (bindings : Bindings) (c : ExecutionContext) :
    Instruction → Outcome ExecutionContext ExecutionError Unit
  | .instantiate keyword set arguments =>
    c.quiet do return { c with pending := some (← instantiate c.vars keyword set arguments) }
  | .assignProperties properties =>
    c.quiet do
      let values ← resolvePlans c.vars properties
      match c.pending with
      | none => throw .noPendingInstance
      | some i => return { c with pending := some (i.setProperties values) }
  | .enterScope =>
    match c.pending with
    | none => ⟨c, [], .error .noPendingInstance⟩
    | some i =>
      let o := c.scope.enter bindings i
      ⟨{ c with scope := o.state, pending := none }, o.calls, o.result.mapError .scope⟩
  | .leaveScope =>
    let o := c.scope.leave bindings
    match o.result with
    | .ok result =>
      let output := if o.state.isEmpty then c.output ++ [result] else c.output
      ⟨{ c with scope := o.state, output }, o.calls, .ok ()⟩
    | .error e => ⟨{ c with scope := o.state }, o.calls, .error (.scope e)⟩
  | .assign target value =>
    c.quiet do return c.setVariable target (← evaluate c.vars value)
  | .evaluate e =>
    c.quiet do
      let _ ← evaluate c.vars e
      return c

/-- Carries out instructions up to the first error. -/
def run (bindings : Bindings) (c : ExecutionContext) :
    List Instruction → Outcome ExecutionContext ExecutionError Unit
  | [] => ⟨c, [], .ok ()⟩
  | i :: rest =>
    let first := c.step bindings i
    match first.result with
    | .error e => ⟨first.state, first.calls, .error e⟩
    | .ok () =>
      let others := first.state.run bindings rest
      ⟨others.state, first.calls ++ others.calls, others.result⟩

/-- The context after a failed run that started at the given depth. -/
def unwind (c : ExecutionContext) (depth : Nat) : ExecutionContext :=
  { c with scope := c.scope.unwindTo depth, pending := none }

/-- Runs a fragment. -/
def execute (bindings : Bindings) (c : ExecutionContext) (f : Fragment) :
    Outcome ExecutionContext ExecutionError Unit :=
  let o := c.run bindings f
  match o.result with
  | .ok () => o
  | .error e => ⟨o.state.unwind c.scope.depth, o.calls, .error e⟩

end ExecutionContext

end KeywordEngine
