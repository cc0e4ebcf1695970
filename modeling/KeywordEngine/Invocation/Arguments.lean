import KeywordEngine.Fragment
import KeywordEngine.Invocation.Error

/-!
# Arguments

The elements that follow a keyword's name are bound to its parameters: the named ones first, in
source order, then the positional ones to the parameters that have a position in the resolved set
and were not named, by increasing position.

* `resolveSet`: the parameter set an invocation uses. Of the declared sets to which every named
  parameter belongs it is the default set, or else the first in declaration order.
* `bindArguments`: the resolved set with one plan per bound parameter, or the first fault.
-/

namespace KeywordEngine

/-- The parameter set that an invocation uses and its arguments in binding order. -/
structure BoundArguments where
  set : String
  arguments : List Plan

/-- How arguments are bound: by a keyword, the elements after its name and the invocation's span. -/
abbrev ArgumentBinder := KeywordSpec → List Element → Span → Except InvocationError BoundArguments

namespace Arguments

/-- An element that names a parameter. -/
structure Named where
  parameter : ParameterSpec
  argument : Option Expr
  span : Span

/-- An element without a name. -/
structure Positional where
  argument : Expr
  span : Span

/-- The positional elements in order. -/
def positionals : List Element → List Positional
  | [] => []
  | .named .. :: rest => positionals rest
  | .positional argument span :: rest => ⟨argument, span⟩ :: positionals rest

/-- The named elements with their parameters, after those in `before`. Each has to name a parameter
that no element before it names. -/
def readNamed (k : KeywordSpec) (before : List Named) :
    List Element → Except InvocationError (List Named)
  | [] => .ok before
  | .positional .. :: rest => readNamed k before rest
  | .named name argument span :: rest =>
    match k.parameter? name with
    | none => .error ⟨k.name, span, .unknownParameter name⟩
    | some parameter =>
      if before.any (·.parameter.name == parameter.name) then
        .error ⟨k.name, span, .duplicateParameter parameter.name⟩
      else readNamed k (before ++ [⟨parameter, argument, span⟩]) rest

/-! ## The parameter set -/

/-- The preferred one of some sets: the default set, or else the first. -/
def preferredSet (k : KeywordSpec) (candidates : List String) : String :=
  match k.defaultSet.filter (· ∈ candidates) with
  | some set => set
  | none => candidates.head?.getD allSets

/-- The candidates to which each of the named parameters belongs. -/
def narrowSets (k : KeywordSpec) (candidates : List String) :
    List Named → Except InvocationError (List String)
  | [] => .ok candidates
  | n :: rest =>
    match candidates.filter fun set => (n.parameter.inSet? set).isSome with
    | [] => .error ⟨k.name, n.span,
        .parameterNotInSet n.parameter.name (preferredSet k candidates)⟩
    | kept => narrowSets k kept rest

/-- The parameter set that an invocation with these named parameters uses. -/
def resolveSet (k : KeywordSpec) (named : List Named) : Except InvocationError String :=
  match k.setNames with
  | [] => .ok allSets
  | declared => (narrowSets k declared named).map (preferredSet k)

/-! ## Plans -/

/-- The plan for an expression given to a parameter. -/
def planFor (k : KeywordSpec) (p : ParameterSpec) (e : Expr) (span : Span) :
    Except InvocationError Plan :=
  match Operand.plan e p.constraint with
  | .ok operand => .ok ⟨p.name, p.constraint, operand⟩
  | .error error => .error ⟨k.name, span, .parameterTypeMismatch p.name error⟩

/-- The plan for a named element; a bare name is the value true, if its parameter is a switch. -/
def planNamed (k : KeywordSpec) (n : Named) : Except InvocationError Plan :=
  match n.argument with
  | some e => planFor k n.parameter e n.span
  | none =>
    if n.parameter.constraint.isSwitch then
      .ok ⟨n.parameter.name, n.parameter.constraint, .constant (.bool true)⟩
    else .error ⟨k.name, n.span, .missingArgument n.parameter.name⟩

/-- The parameters that take positional arguments in `set`, by increasing position. -/
def slots (k : KeywordSpec) (named : List Named) (set : String) : List ParameterSpec :=
  let free := k.parameters.filter fun p => !named.any (·.parameter.name == p.name)
  let placed := free.filterMap fun p => (p.position? set).map (·, p)
  (placed.mergeSort fun a b => a.1 ≤ b.1).map (·.2)

/-- The plans of positional elements for the slots they fall into. -/
def planPositionals (k : KeywordSpec) :
    List ParameterSpec → List Positional → Except InvocationError (List Plan)
  | p :: slots, e :: rest => do
    let plan ← planFor k p e.argument e.span
    return plan :: (← planPositionals k slots rest)
  | _, _ => .ok []

/-- The first parameter that is mandatory in `set` and has no plan. -/
def missing? (k : KeywordSpec) (set : String) (plans : List Plan) : Option ParameterSpec :=
  k.parameters.find? fun p => p.mandatoryIn set && !plans.any (·.target == p.name)

end Arguments

open Arguments in
/-- Binds the elements after a keyword's name to its parameters. -/
def bindArguments : ArgumentBinder := fun k elements span => do
  let named ← readNamed k [] elements
  let set ← resolveSet k named
  let namedPlans ← named.mapM (planNamed k)
  let slots := slots k named set
  let positionals := positionals elements
  if let some extra := positionals[slots.length]? then
    throw ⟨k.name, extra.span, .tooManyPositionalArguments (positionals.length - slots.length)⟩
  let plans := namedPlans ++ (← planPositionals k slots positionals)
  if let some p := missing? k set plans then
    throw ⟨k.name, span, .missingMandatoryParameter p.name⟩
  return ⟨set, plans⟩

end KeywordEngine
