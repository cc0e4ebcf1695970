import KeywordEngine.Execution
import KeywordEngine.Invocation.Arguments
import KeywordEngine.Invocation.Properties
import KeywordEngine.Proofs.Tree

/-!
# The meaning of a script

What a script does, said on its tree of statements: no instructions, no stack, no instance under
construction. The frames around a statement are an argument, and the results of closed scopes are
returned to the level on which the scopes were opened.

* `Invocation.instantiate`: the instance that an invocation shows to its hooks. Its arguments are
  evaluated and fitted to their parameters in source order, the named ones before the positional
  ones and both before the entries of a hashtable body.
* `statementsMeaning`: what statements do among the frames around them.
-/

namespace KeywordEngine

/-! ## Arguments and properties -/

/-- A parameter or property with the expression that gives it its value; none for a bare name, which
stands for true. -/
structure Assignment where
  target : String
  constraint : TypeConstraint
  source : Option Expr

/-- A parameter with its argument. -/
def Assignment.ofParameter (a : ParameterSpec × Option Expr) : Assignment :=
  ⟨a.1.name, a.1.constraint, a.2⟩

/-- The value of an expression fitted to a constraint. -/
def evaluateAs (vars : Variables) (target : String) (c : TypeConstraint) (e : Expr) :
    Except ExecutionError Value := do
  let v ← evaluate vars e
  (c.coerce v).mapError (.coercion target)

/-- The value that an assignment gives to its target. -/
def Assignment.value (vars : Variables) (a : Assignment) : Except ExecutionError Value :=
  match a.source with
  | none => .ok (.bool true)
  | some e => evaluateAs vars a.target a.constraint e

/-- The targets of assignments with their values, evaluated from the first on. -/
def assignedValues (vars : Variables) :
    List Assignment → Except ExecutionError (List (String × Value))
  | [] => .ok []
  | a :: rest => do
    let v ← a.value vars
    return (a.target, v) :: (← assignedValues vars rest)

/-- The parameter of `k` that an element names, with its argument. -/
def Element.named? (k : KeywordSpec) : Element → Option (ParameterSpec × Option Expr)
  | .named name argument _ => (k.parameter? name).map (·, argument)
  | .positional .. => none

/-- The argument of an element without a name. -/
def Element.positional? : Element → Option Expr
  | .named .. => none
  | .positional e _ => some e

/-- The assignment to the property of `k` that the key of an entry names. -/
def HashtableEntry.assignment? (k : KeywordSpec) (entry : HashtableEntry) : Option Assignment :=
  ((literalKey? entry.key).bind k.property?).map fun p =>
    ⟨p.name, p.constraint, some entry.value⟩

namespace Invocation

/-- The parameters that elements name, each with its argument, in source order. -/
def namedArguments (n : Invocation) : List (ParameterSpec × Option Expr) :=
  n.elements.filterMap (·.named? n.keyword.spec)

/-- The arguments without a name, in source order. -/
def positionalArguments (n : Invocation) : List Expr := n.elements.filterMap (·.positional?)

/-- The parameter set in use: of the declared sets that contain every named parameter the default
set, or else the first; without declared sets the one that stands for all. -/
def parameterSet (n : Invocation) : String :=
  Arguments.preferredSet n.keyword.spec
    (n.keyword.spec.setNames.filter fun set =>
      n.namedArguments.all fun a => (a.1.inSet? set).isSome)

/-- The parameters that are not named and have a position in the set in use, by that position. -/
def positionalParameters (n : Invocation) : List ParameterSpec :=
  let free := n.keyword.spec.parameters.filter fun p =>
    !n.namedArguments.any (·.1.name == p.name)
  let placed := free.filterMap fun p => (p.position? n.parameterSet).map (·, p)
  (placed.mergeSort fun a b => a.1 ≤ b.1).map (·.2)

/-- The assignments to parameters, the named ones first. -/
def arguments (n : Invocation) : List Assignment :=
  (n.namedArguments ++ n.positionalParameters.zip (n.positionalArguments.map some)).map .ofParameter

/-- The assignments to properties, in the order of the hashtable body. -/
def properties (n : Invocation) : List Assignment :=
  n.entries.filterMap (·.assignment? n.keyword.spec)

/-- The instance that hooks are shown. -/
def instantiate (n : Invocation) (vars : Variables) : Except ExecutionError Instance := do
  let parameters ← assignedValues vars n.arguments
  let properties ← assignedValues vars n.properties
  return ⟨n.keyword, n.parameterSet, .ofList parameters, .ofList properties⟩

end Invocation

/-! ## Scopes -/

namespace RuntimeInfo

/-- The frame of a scope that opens, with the call of the enter hook. -/
def opened (r : RuntimeInfo) (i : Instance) (ancestors : List Frame) :
    List ScopeCall × Except HookError Frame :=
  if r.hasEnterHook then
    ([.enter i ancestors], (r.implementation.enterScope i ancestors).map fun v => ⟨i, some v⟩)
  else ([], .ok ⟨i, none⟩)

/-- The result of a scope that closes, with the call of the leave hook. -/
def closed (r : RuntimeInfo) (f : Frame) (ancestors : List Frame) (children : List (Option Value)) :
    List ScopeCall × Except HookError (Option Value) :=
  if r.hasLeaveHook then
    ([.leave f ancestors children], (r.implementation.leaveScope f ancestors children).map some)
  else ([], .ok none)

end RuntimeInfo

/-! ## Statements -/

/-- What evaluating statements gives, also in failure. -/
structure Meaning where
  vars : Variables
  /-- The results of the scopes that the statements themselves opened, in the order in which these
  closed. -/
  results : List (Option Value)
  calls : List ScopeCall
  result : Except ExecutionError Unit

namespace Meaning

/-- Nothing happens. -/
def done (vars : Variables) : Meaning := ⟨vars, [], [], .ok ()⟩

/-- Evaluation stops. -/
def fail (vars : Variables) (calls : List ScopeCall) (e : ExecutionError) : Meaning :=
  ⟨vars, [], calls, .error e⟩

/-- The first meaning and, unless it is a failure, what follows it. -/
def andThen (x : Meaning) (f : Variables → Meaning) : Meaning :=
  match x.result with
  | .error _ => x
  | .ok () =>
    let y := f x.vars
    ⟨y.vars, x.results ++ y.results, x.calls ++ y.calls, y.result⟩

/-- A scope around a block. The block sees the new frame, and the leave hook the results of the
scopes opened in the block. A failure anywhere leaves no result. -/
def inScope (r : RuntimeInfo) (i : Instance) (ancestors : List Frame) (vars : Variables)
    (block : List Frame → Meaning) : Meaning :=
  let (enter, frame) := r.opened i ancestors
  match frame with
  | .error e => .fail vars enter (.scope (.hook e))
  | .ok frame =>
    let inner := block (ancestors ++ [frame])
    match inner.result with
    | .error e => .fail inner.vars (enter ++ inner.calls) e
    | .ok () =>
      let (leave, result) := r.closed frame ancestors inner.results
      match result with
      | .error e => .fail inner.vars (enter ++ inner.calls ++ leave) (.scope (.hook e))
      | .ok v => ⟨inner.vars, [v], enter ++ inner.calls ++ leave, .ok ()⟩

end Meaning

section Bindings

variable (bindings : Bindings)

mutual
/-- What an invocation does. One without a scope hook does what its block does, and its arguments
are never evaluated. -/
def Invocation.meaning (ancestors : List Frame) (vars : Variables) : Invocation → Meaning
  | ⟨keyword, elements, body, span⟩ =>
    let block := fun frames =>
      match body with
      | some (.scriptBlock statements _) => statementsMeaning frames vars statements
      | _ => .done vars
    match bindings.runtime? keyword with
    | none => .fail vars [] (.scope (.unbound keyword.name))
    | some runtime =>
      if runtime.usesScope then
        match Invocation.instantiate ⟨keyword, elements, body, span⟩ vars with
        | .error e => .fail vars [] e
        | .ok i => .inScope runtime i ancestors vars block
      else block ancestors
termination_by structural n => n

/-- What a statement does. -/
def Statement.meaning (ancestors : List Frame) (vars : Variables) : Statement → Meaning
  | .invoke n => n.meaning ancestors vars
  | .assign target value _ =>
    match evaluate vars value with
    | .error e => .fail vars [] e
    | .ok v => .done (vars.assign target v)
  | .evaluate e _ =>
    match evaluate vars e with
    | .error e => .fail vars [] e
    | .ok _ => .done vars
termination_by structural s => s

/-- What statements do one after the other. -/
def statementsMeaning (ancestors : List Frame) (vars : Variables) : List Statement → Meaning
  | [] => .done vars
  | s :: rest => (s.meaning ancestors vars).andThen fun vars => statementsMeaning ancestors vars rest
termination_by structural l => l
end

@[simp] theorem statementsMeaning_nil (ancestors : List Frame) (vars : Variables) :
    statementsMeaning bindings ancestors vars [] = .done vars := by
  simp [statementsMeaning]

theorem statementsMeaning_cons (ancestors : List Frame) (vars : Variables) (s : Statement)
    (rest : List Statement) :
    statementsMeaning bindings ancestors vars (s :: rest) =
      (s.meaning bindings ancestors vars).andThen fun vars =>
        statementsMeaning bindings ancestors vars rest := by
  simp [statementsMeaning]

private theorem statementsMeaning_block (n : Invocation) (ancestors : List Frame)
    (vars : Variables) :
    statementsMeaning bindings ancestors vars n.block =
      match n.body with
      | some (.scriptBlock statements _) => statementsMeaning bindings ancestors vars statements
      | _ => .done vars := by
  unfold Invocation.block
  cases n.body with
  | none => simp
  | some e => cases e <;> simp

/-- What an invocation of a bound keyword does, said of its block. -/
theorem Invocation.meaning_eq {runtime : RuntimeInfo} {n : Invocation}
    (h : bindings.runtime? n.keyword = some runtime) (ancestors : List Frame) (vars : Variables) :
    n.meaning bindings ancestors vars =
      if runtime.usesScope then
        match n.instantiate vars with
        | .error e => .fail vars [] e
        | .ok i => .inScope runtime i ancestors vars fun frames =>
          statementsMeaning bindings frames vars n.block
      else statementsMeaning bindings ancestors vars n.block := by
  obtain ⟨keyword, elements, body, span⟩ := n
  unfold Invocation.meaning
  simp only at h
  rw [h]
  simp only [statementsMeaning_block]

end Bindings

end KeywordEngine
