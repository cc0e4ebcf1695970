import KeywordEngine.Proofs.Compilation
import KeywordEngine.Proofs.Machine

/-!
# The spelling of names

The names that a script itself spells are those of variables, of parameters and of properties.
Folding a script puts all of them in small letters and keeps everything else, so scripts differ at
most in the case of such names if and only if their folded forms are equal.

* `Expr.folded`, `Statement.folded`, `Invocation.folded`: folded scripts.
* `Fragment.folded`, `ExecutionError.folded`: what becomes of code, and of errors that quote the name
  of a variable as it was spelled.
* `evaluate_folded`, `ExecutionContext.execute_folded`: folded code does what the code does.
-/

namespace KeywordEngine

/-! ## Scripts -/

/-- The key of an entry of a hashtable body, if it is a literal text, in small letters. -/
def foldedKey : Expr → Expr
  | .literal (.string key) => .literal (.string (Text.fold key))
  | key => key

/-- An entry of a hashtable body with its key in small letters. -/
def HashtableEntry.withFoldedKey (e : HashtableEntry) : HashtableEntry :=
  { e with key := foldedKey e.key }

/-- A body with its keys in small letters. -/
def foldedKeys : Expr → Expr
  | .hashtable entries => .hashtable (entries.map (·.withFoldedKey))
  | body => body

mutual
/-- An expression with the names in it in small letters. The keys of a hashtable that is a value are
values themselves and stay as they are. -/
def Expr.folded : Expr → Expr
  | .literal v => .literal v
  | .readVariable name => .readVariable (Text.fold name)
  | .array items => .array (foldedItems items)
  | .hashtable entries => .hashtable (foldedEntries entries)
  | .scriptBlock statements span => .scriptBlock (foldedStatements statements) span
termination_by structural e => e

/-- The folded forms of items. -/
def foldedItems : List Expr → List Expr
  | [] => []
  | e :: rest => e.folded :: foldedItems rest
termination_by structural l => l

/-- An entry with the names in it in small letters. -/
def HashtableEntry.folded : HashtableEntry → HashtableEntry
  | ⟨key, value, span⟩ => ⟨key.folded, value.folded, span⟩
termination_by structural e => e

/-- The folded forms of entries. -/
def foldedEntries : List HashtableEntry → List HashtableEntry
  | [] => []
  | e :: rest => e.folded :: foldedEntries rest
termination_by structural l => l

/-- A statement with the names in it in small letters. -/
def Statement.folded : Statement → Statement
  | .invoke node => .invoke node.folded
  | .assign target value span => .assign (Text.fold target) value.folded span
  | .evaluate e span => .evaluate e.folded span
termination_by structural s => s

/-- The folded forms of statements. -/
def foldedStatements : List Statement → List Statement
  | [] => []
  | s :: rest => s.folded :: foldedStatements rest
termination_by structural l => l

/-- An element with the names in it in small letters. -/
def Element.folded : Element → Element
  | .named name argument span => .named (Text.fold name) (foldedOption argument) span
  | .positional argument span => .positional argument.folded span
termination_by structural e => e

/-- The folded forms of elements. -/
def foldedElements : List Element → List Element
  | [] => []
  | e :: rest => e.folded :: foldedElements rest
termination_by structural l => l

/-- The folded form of an expression that may be left out. -/
def foldedOption : Option Expr → Option Expr
  | none => none
  | some e => some e.folded
termination_by structural e => e

/-- An invocation with the names in it in small letters, among them the keys of its body. -/
def Invocation.folded : Invocation → Invocation
  | ⟨keyword, elements, body, span⟩ =>
    ⟨keyword, foldedElements elements, (foldedOption body).map foldedKeys, span⟩
termination_by structural n => n
end

theorem foldedEntries_eq (l : List HashtableEntry) : foldedEntries l = l.map (·.folded) := by
  induction l with
  | nil => rfl
  | cons e rest ih => rw [foldedEntries, ih, List.map_cons]

@[simp] theorem HashtableEntry.key_folded (e : HashtableEntry) : e.folded.key = e.key.folded := by
  cases e; rfl

@[simp] theorem HashtableEntry.value_folded (e : HashtableEntry) :
    e.folded.value = e.value.folded := by
  cases e; rfl

@[simp] theorem HashtableEntry.span_folded (e : HashtableEntry) : e.folded.span = e.span := by
  cases e; rfl

namespace Invocation

variable (n : Invocation)

@[simp] theorem keyword_folded : n.folded.keyword = n.keyword := by cases n; rfl

@[simp] theorem span_folded : n.folded.span = n.span := by cases n; rfl

@[simp] theorem elements_folded : n.folded.elements = foldedElements n.elements := by cases n; rfl

theorem body_folded : n.folded.body = (foldedOption n.body).map foldedKeys := by cases n; rfl

end Invocation

/-! ### Folding once -/

theorem folded_foldedKey (key : Expr) : (foldedKey key).folded = foldedKey key.folded := by
  cases key with
  | literal v => cases v <;> rfl
  | _ => rfl

theorem foldedKey_foldedKey (key : Expr) : foldedKey (foldedKey key) = foldedKey key := by
  cases key with
  | literal v =>
    cases v with
    | string s => simp only [foldedKey, Text.fold_fold]
    | _ => rfl
  | _ => rfl

theorem folded_foldedKeys (body : Expr) : (foldedKeys body).folded = foldedKeys body.folded := by
  cases body with
  | hashtable entries =>
    have hentry (e : HashtableEntry) : e.withFoldedKey.folded = e.folded.withFoldedKey := by
      obtain ⟨key, value, span⟩ := e
      simp only [HashtableEntry.withFoldedKey, HashtableEntry.folded, folded_foldedKey]
    simp only [foldedKeys, Expr.folded, foldedEntries_eq, List.map_map, Function.comp_def, hentry]
  | _ => rfl

theorem foldedKeys_foldedKeys (body : Expr) : foldedKeys (foldedKeys body) = foldedKeys body := by
  cases body with
  | hashtable entries =>
    simp only [foldedKeys, List.map_map, Function.comp_def, HashtableEntry.withFoldedKey,
      foldedKey_foldedKey]
  | _ => rfl

mutual
theorem Expr.folded_folded (e : Expr) : e.folded.folded = e.folded := by
  cases e with
  | literal v => rfl
  | readVariable name => simp only [Expr.folded, Text.fold_fold]
  | array items => simp only [Expr.folded, foldedItems_folded]
  | hashtable entries => simp only [Expr.folded, foldedEntries_folded]
  | scriptBlock statements span => simp only [Expr.folded, foldedStatements_folded]

theorem foldedItems_folded (l : List Expr) : foldedItems (foldedItems l) = foldedItems l := by
  cases l with
  | nil => rfl
  | cons e rest => simp only [foldedItems, Expr.folded_folded, foldedItems_folded]

theorem HashtableEntry.folded_folded (e : HashtableEntry) : e.folded.folded = e.folded := by
  cases e with
  | mk key value span => simp only [HashtableEntry.folded, Expr.folded_folded]

theorem foldedEntries_folded (l : List HashtableEntry) :
    foldedEntries (foldedEntries l) = foldedEntries l := by
  cases l with
  | nil => rfl
  | cons e rest => simp only [foldedEntries, HashtableEntry.folded_folded, foldedEntries_folded]

theorem Statement.folded_folded (s : Statement) : s.folded.folded = s.folded := by
  cases s with
  | invoke node => simp only [Statement.folded, Invocation.folded_folded]
  | assign target value span => simp only [Statement.folded, Text.fold_fold, Expr.folded_folded]
  | evaluate e span => simp only [Statement.folded, Expr.folded_folded]

theorem foldedStatements_folded (l : List Statement) :
    foldedStatements (foldedStatements l) = foldedStatements l := by
  cases l with
  | nil => rfl
  | cons s rest => simp only [foldedStatements, Statement.folded_folded, foldedStatements_folded]

theorem Element.folded_folded (e : Element) : e.folded.folded = e.folded := by
  cases e with
  | named name argument span => simp only [Element.folded, Text.fold_fold, foldedOption_folded]
  | positional argument span => simp only [Element.folded, Expr.folded_folded]

theorem foldedElements_folded (l : List Element) :
    foldedElements (foldedElements l) = foldedElements l := by
  cases l with
  | nil => rfl
  | cons e rest => simp only [foldedElements, Element.folded_folded, foldedElements_folded]

theorem foldedOption_folded (o : Option Expr) : foldedOption (foldedOption o) = foldedOption o := by
  cases o with
  | none => rfl
  | some e => simp only [foldedOption, Expr.folded_folded]

/-- Folding a folded invocation changes nothing. -/
theorem Invocation.folded_folded (n : Invocation) : n.folded.folded = n.folded := by
  cases n with
  | mk keyword elements body span =>
    have hbody : (foldedOption ((foldedOption body).map foldedKeys)).map foldedKeys =
        (foldedOption body).map foldedKeys := by
      cases body with
      | none => rfl
      | some e =>
        simp only [foldedOption, Option.map_some, folded_foldedKeys, Expr.folded_folded,
          foldedKeys_foldedKeys]
    simp only [Invocation.folded, foldedElements_folded, hbody]
end

/-! ## Trees -/

theorem Invocation.block_folded (n : Invocation) : n.folded.block = foldedStatements n.block := by
  unfold block
  rw [body_folded]
  cases n.body with
  | none => rfl
  | some e => cases e <;> rfl

/-- Folding a tree folds the invocations in it. -/
theorem reachedInvocations_folded (l : List Statement) :
    reachedInvocations (foldedStatements l) = (reachedInvocations l).map (·.folded) := by
  induction l using statements_induction with
  | nil => rw [foldedStatements, reachedInvocations_nil, List.map_nil]
  | assign target value span rest ih =>
    rw [foldedStatements, Statement.folded, reachedInvocations_assign, reachedInvocations_assign,
      ih]
  | evaluate e span rest ih =>
    rw [foldedStatements, Statement.folded, reachedInvocations_evaluate,
      reachedInvocations_evaluate, ih]
  | invoke n rest ihblock ih =>
    rw [foldedStatements, Statement.folded, reachedInvocations_invoke, reachedInvocations_invoke,
      n.block_folded, ihblock, ih, List.map_cons, List.map_append]

/-! ## Values -/

mutual
/-- No constant has a name in it. -/
theorem Expr.constant?_folded (e : Expr) : e.folded.constant? = e.constant? := by
  cases e with
  | literal v => rfl
  | readVariable name => rfl
  | array items => simp only [Expr.folded, Expr.constant?, constantItems?_folded]
  | hashtable entries => simp only [Expr.folded, Expr.constant?, constantEntries?_folded]
  | scriptBlock statements span => rfl

theorem constantItems?_folded (l : List Expr) :
    constantItems? (foldedItems l) = constantItems? l := by
  cases l with
  | nil => rfl
  | cons e rest =>
    simp only [foldedItems, constantItems?, Expr.constant?_folded, constantItems?_folded]

theorem constantEntries?_folded (l : List HashtableEntry) :
    constantEntries? (foldedEntries l) = constantEntries? l := by
  cases l with
  | nil => rfl
  | cons e rest =>
    obtain ⟨key, value, span⟩ := e
    simp only [foldedEntries, HashtableEntry.folded, constantEntries?, Expr.constant?_folded,
      constantEntries?_folded]
end

/-- The error with the name of a variable in it in small letters. -/
def ExecutionError.folded : ExecutionError → ExecutionError
  | unknownVariable name => unknownVariable (Text.fold name)
  | error => error

section Variables

variable (vars : Variables)

mutual
/-- A folded expression has the same value, or fails for the same reason. -/
theorem evaluate_folded (e : Expr) :
    evaluate vars e.folded = (evaluate vars e).mapError (·.folded) := by
  cases e with
  | literal v => rfl
  | readVariable name =>
    simp only [Expr.folded, evaluate, Variables.read?, Text.fold_fold]
    cases vars.get? (Text.fold name) <;> rfl
  | array items =>
    simp only [Expr.folded, evaluate, evaluateItems_folded items]
    cases evaluateItems vars items <;> rfl
  | hashtable entries =>
    simp only [Expr.folded, evaluate, evaluateEntries_folded entries]
    cases evaluateEntries vars entries <;> rfl
  | scriptBlock statements span => rfl

theorem evaluateItems_folded (l : List Expr) :
    evaluateItems vars (foldedItems l) = (evaluateItems vars l).mapError (·.folded) := by
  cases l with
  | nil => rfl
  | cons e rest =>
    simp only [foldedItems, evaluateItems, evaluate_folded e, evaluateItems_folded rest]
    cases evaluate vars e <;> cases evaluateItems vars rest <;> rfl

theorem evaluateEntries_folded (l : List HashtableEntry) :
    evaluateEntries vars (foldedEntries l) = (evaluateEntries vars l).mapError (·.folded) := by
  cases l with
  | nil => rfl
  | cons e rest =>
    obtain ⟨key, value, span⟩ := e
    simp only [foldedEntries, HashtableEntry.folded, evaluateEntries, evaluate_folded key,
      evaluate_folded value, evaluateEntries_folded rest]
    cases evaluate vars key <;> cases evaluate vars value <;>
      cases evaluateEntries vars rest <;> rfl
end

end Variables

/-! ## Code -/

/-- An operand with the names in it in small letters. -/
def Operand.folded : Operand → Operand
  | constant v => constant v
  | deferred e => deferred e.folded

theorem Operand.plan_folded (e : Expr) (c : TypeConstraint) :
    Operand.plan e.folded c = (Operand.plan e c).map (·.folded) := by
  unfold Operand.plan
  rw [e.constant?_folded]
  cases e.constant? with
  | none => rfl
  | some v => cases hv : c.coerce v <;> simp [hv, Except.map, Operand.folded]

/-- A plan with the names in its operand in small letters. -/
def Plan.folded (p : Plan) : Plan := { p with operand := p.operand.folded }

@[simp] theorem Plan.target_folded (p : Plan) : p.folded.target = p.target := rfl

theorem any_target_folded (plans : List Plan) (name : String) :
    (plans.map (·.folded)).any (·.target == name) = plans.any (·.target == name) := by
  rw [List.any_map]
  rfl

/-- An instruction with the names of variables in small letters. -/
def Instruction.folded : Instruction → Instruction
  | instantiate keyword set arguments => instantiate keyword set (arguments.map (·.folded))
  | assignProperties properties => assignProperties (properties.map (·.folded))
  | enterScope => enterScope
  | leaveScope => leaveScope
  | assign target value => assign (Text.fold target) value.folded
  | evaluate e => evaluate e.folded

/-- Code with the names of variables in small letters. -/
def Fragment.folded (f : Fragment) : Fragment := f.map (·.folded)

theorem Plan.resolve_folded (vars : Variables) (p : Plan) :
    p.folded.resolve vars = (p.resolve vars).mapError (·.folded) := by
  obtain ⟨target, c, operand⟩ := p
  cases operand with
  | constant v => rfl
  | deferred e =>
    simp only [folded, Operand.folded, resolve, evaluate_folded]
    cases evaluate vars e with
    | error error => rfl
    | ok v => cases hv : c.coerce v <;> simp [hv, ExecutionError.folded]

theorem resolvePlans_folded (vars : Variables) (plans : List Plan) :
    resolvePlans vars (plans.map (·.folded)) = (resolvePlans vars plans).mapError (·.folded) := by
  induction plans with
  | nil => rfl
  | cons p rest ih =>
    simp only [List.map_cons, resolvePlans, p.resolve_folded, ih, Plan.target_folded]
    cases p.resolve vars <;> cases resolvePlans vars rest <;> rfl

/-! ## Runs -/

/-- The outcome with the name of a variable in its error in small letters. -/
def Outcome.folded (o : Outcome ExecutionContext ExecutionError Unit) :
    Outcome ExecutionContext ExecutionError Unit :=
  ⟨o.state, o.calls, o.result.mapError (·.folded)⟩

namespace ExecutionContext

variable (bindings : Bindings) (c : ExecutionContext)

/-- Carrying out a folded instruction comes to the same. -/
theorem step_folded (i : Instruction) :
    c.step bindings i.folded = (c.step bindings i).folded := by
  cases i with
  | instantiate k set arguments =>
    rw [Instruction.folded, step_instantiate, step_instantiate, instantiate, instantiate,
      resolvePlans_folded]
    cases resolvePlans c.vars arguments <;> rfl
  | assignProperties properties =>
    rw [Instruction.folded, step_assignProperties, step_assignProperties, resolvePlans_folded]
    cases resolvePlans c.vars properties <;> cases c.pending <;> rfl
  | enterScope =>
    simp only [Instruction.folded, step]
    cases c.pending with
    | none => rfl
    | some i =>
      simp only [Outcome.folded]
      cases (c.scope.enter bindings i).result <;> rfl
  | leaveScope =>
    simp only [Instruction.folded, step]
    cases hleave : (c.scope.leave bindings).result <;> rfl
  | assign target value =>
    rw [Instruction.folded, step_assign, step_assign, evaluate_folded]
    cases evaluate c.vars value with
    | error e => rfl
    | ok v =>
      simp only [Success.mapError_ok, Outcome.folded, setVariable, Variables.assign, Text.fold_fold]
  | evaluate e =>
    rw [Instruction.folded, step_evaluate, step_evaluate, evaluate_folded]
    cases KeywordEngine.evaluate c.vars e <;> rfl

theorem run_folded (f : Fragment) :
    c.run bindings f.folded = (c.run bindings f).folded := by
  induction f generalizing c with
  | nil => rfl
  | cons i rest ih =>
    show c.run bindings (i.folded :: Fragment.folded rest) = _
    rw [run, run, step_folded]
    cases hfirst : (c.step bindings i).result with
    | error e => simp [Outcome.folded, hfirst]
    | ok u => simp [Outcome.folded, hfirst, ih]

/-- Folded code does to a context what the code does. -/
theorem execute_folded (f : Fragment) :
    c.execute bindings f.folded = (c.execute bindings f).folded := by
  unfold execute
  rw [run_folded]
  cases hrun : (c.run bindings f).result <;> simp [Outcome.folded, hrun]

end ExecutionContext

end KeywordEngine
