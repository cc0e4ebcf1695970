import KeywordEngine.Proofs.ArgumentBinding
import KeywordEngine.Proofs.Emission
import KeywordEngine.Proofs.Machine

/-!
# Code does what its script means

The code of an accepted script, run in any context, calls the same hooks with the same arguments as
the tree of statements does, and leaves the same variables, the same output and the same outcome.

* `ExecutionContext.run_opening`: the opening instructions make the instance that hooks are shown.
* `Simulates`: a run does what statements mean. On success it has put the results of the scopes
  opened by the statements on the level that they belong to, and nothing else is left of them.
* `simulates_of_emits`: code simulates the statements that it was emitted for. The induction is on
  the emission, for every context at once: the code of a block runs on top of the frame that was
  pushed for it.
* `ExecutionContext.execute_compileScript`: accepted code does what its script means.
-/

namespace KeywordEngine

variable {bindings : Bindings}

/-! ## Instances -/

namespace ExecutionContext

theorem foldl_setParameter (values : List (String × Value)) (i : Instance) :
    values.foldl (fun i v => i.setParameter v.1 v.2) i =
      { i with parameters := i.parameters.insertMany values } := by
  induction values generalizing i with
  | nil => rfl
  | cons v rest ih =>
    rw [List.foldl_cons, ih]
    rfl

theorem instantiate_eq {n : Invocation} {bound : BoundArguments}
    (h : bindArguments n.keyword.spec n.elements n.span = .ok bound) (vars : Variables) :
    instantiate vars n.keyword bound.set bound.arguments =
      (assignedValues vars n.arguments).map fun values =>
        ⟨n.keyword, n.parameterSet, .ofList values, .empty⟩ := by
  unfold instantiate
  rw [resolvePlans_of_plans (Invocation.plans_of_bindArguments h), Invocation.set_of_bindArguments h]
  cases assignedValues vars n.arguments with
  | error e => rfl
  | ok values =>
    show Except.ok (values.foldl _ _) = _
    rw [foldl_setParameter]
    rfl

theorem keyword_of_instantiate {n : Invocation} {vars : Variables} {i : Instance}
    (h : n.instantiate vars = .ok i) : i.keyword = n.keyword := by
  unfold Invocation.instantiate at h
  obtain ⟨parameters, -, h⟩ := Success.bind_eq_ok.1 h
  obtain ⟨properties, -, h⟩ := Success.bind_eq_ok.1 h
  rw [← Success.pure_eq_ok.1 h]

/-- The opening instructions make the instance that hooks are shown, or fail as making it fails. -/
theorem run_opening {n : Invocation} {start : Fragment} (h : Opening n start)
    (c : ExecutionContext) :
    (∃ i, n.instantiate c.vars = .ok i ∧
      c.run bindings start = ⟨{ c with pending := some i }, [], .ok ()⟩) ∨
    ∃ e p, n.instantiate c.vars = .error e ∧
      c.run bindings start = ⟨{ c with pending := p }, [], .error e⟩ := by
  cases h with
  | plain mode bodiless binds =>
    have hn : n.properties = [] := by simp [Invocation.properties, bodiless]
    rw [run_singleton, step_instantiate, instantiate_eq binds, Invocation.instantiate, hn]
    cases assignedValues c.vars n.arguments with
    | error e => exact .inr ⟨e, c.pending, rfl, rfl⟩
    | ok values => exact .inl ⟨_, rfl, rfl⟩
  | hashtable mode binds planned =>
    have hp : resolvePlans c.vars _ = assignedValues c.vars n.properties :=
      resolvePlans_of_plans (Invocation.plans_of_planProperties planned)
    rw [run, step_instantiate, instantiate_eq binds, Invocation.instantiate]
    cases assignedValues c.vars n.arguments with
    | error e => exact .inr ⟨e, c.pending, rfl, rfl⟩
    | ok values =>
      simp only [Except.map, run_singleton]
      rw [step_assignProperties, hp]
      cases assignedValues c.vars n.properties with
      | error e => exact .inr ⟨e, _, rfl, rfl⟩
      | ok properties => exact .inl ⟨_, rfl, rfl⟩

end ExecutionContext

/-! ## The simulation -/

/-- A run from `c` does what statements mean, where `opened` scopes are opened unless it fails. -/
structure Simulates (c : ExecutionContext) (m : Meaning) (opened : Nat)
    (o : Outcome ExecutionContext ExecutionError Unit) : Prop where
  calls : o.calls = m.calls
  result : o.result = m.result
  vars : o.state.vars = m.vars
  output : o.state.output = c.output ++ if c.scope.isEmpty then m.results else []
  scope : m.result = .ok () → o.state.scope = c.scope.collect m.results opened

namespace Simulates

open ExecutionContext

theorem done (c : ExecutionContext) (vars : Variables) :
    Simulates c (.done vars) 0 ⟨{ c with vars }, [], .ok ()⟩ where
  calls := rfl
  result := rfl
  vars := rfl
  output := by simp [Meaning.done]
  scope := fun _ => (c.scope.collect_nil).symm

/-- A failure that leaves the stack alone. -/
theorem fail {c : ExecutionContext} {p : Option Instance} {vars : Variables}
    {calls : List ScopeCall} {e : ExecutionError} {scope : ScopeStack} (n : Nat) :
    Simulates c (.fail vars calls e) n ⟨⟨scope, vars, c.output, p⟩, calls, .error e⟩ where
  calls := rfl
  result := rfl
  vars := rfl
  output := by simp [Meaning.fail]
  scope := fun h => by simp [Meaning.fail] at h

/-- Code that simulates, followed by code that simulates in every context that the first can end
in. -/
theorem append {c : ExecutionContext} {m : Meaning} {next : Variables → Meaning} {n₁ n₂ : Nat}
    {f g : Fragment} (hf : Simulates c m n₁ (c.run bindings f))
    (hg : ∀ c' : ExecutionContext, c'.scope.ancestors = c.scope.ancestors →
      Simulates c' (next c'.vars) n₂ (c'.run bindings g)) :
    Simulates c (m.andThen next) (n₁ + n₂) (c.run bindings (f ++ g)) := by
  unfold Meaning.andThen
  cases hm : m.result with
  | error e =>
    rw [run_append_of_error (hf.result.trans hm)]
    exact ⟨hf.calls, hf.result, hf.vars, hf.output, fun h => by simp [hm] at h⟩
  | ok u =>
    rw [run_append_of_ok (hf.result.trans hm)]
    have hscope := hf.scope hm
    have hg := hg (c.run bindings f).state (by rw [hscope]; rfl)
    rw [hf.vars] at hg
    refine ⟨?_, hg.result, hg.vars, ?_, fun h => ?_⟩
    · show _ ++ _ = _ ++ _
      rw [hf.calls, hg.calls]
    · show ((c.run bindings f).state.run bindings g).state.output = _
      rw [hg.output, hf.output, hscope, ScopeStack.isEmpty_collect]
      split <;> simp
    · show ((c.run bindings f).state.run bindings g).state.scope = _
      rw [hg.scope h, hscope, ScopeStack.collect_collect]

/-- One instruction in front of code. -/
theorem cons {c : ExecutionContext} {m : Meaning} {next : Variables → Meaning} {n : Nat}
    {i : Instruction} {g : Fragment} (hi : Simulates c m 0 (c.step bindings i))
    (hg : ∀ c' : ExecutionContext, c'.scope.ancestors = c.scope.ancestors →
      Simulates c' (next c'.vars) n (c'.run bindings g)) :
    Simulates c (m.andThen next) n (c.run bindings (i :: g)) := by
  rw [← run_singleton] at hi
  have h := hi.append hg
  rwa [Nat.zero_add] at h

theorem assign (c : ExecutionContext) (target : String) (value : Expr) (span : Span) :
    Simulates c (Statement.meaning bindings c.scope.ancestors c.vars (.assign target value span)) 0
      (c.step bindings (.assign target value)) := by
  rw [step_assign]
  unfold Statement.meaning
  cases evaluate c.vars value with
  | error e => exact fail 0
  | ok v => exact done c (c.vars.assign target v)

theorem evaluate (c : ExecutionContext) (e : Expr) (span : Span) :
    Simulates c (Statement.meaning bindings c.scope.ancestors c.vars (.evaluate e span)) 0
      (c.step bindings (.evaluate e)) := by
  rw [step_evaluate]
  unfold Statement.meaning
  cases KeywordEngine.evaluate c.vars e with
  | error error => exact fail 0
  | ok v => exact done c c.vars

/-- The scope instructions around code that simulates a block in every context with the same
variables. -/
theorem inScope {c : ExecutionContext} {i : Instance} {runtime : RuntimeInfo} {inner : Fragment}
    {block : List Frame → Meaning} {n : Nat} (hpending : c.pending = some i)
    (hbound : bindings.runtime? i.keyword = some runtime)
    (hblock : ∀ c' : ExecutionContext, c'.vars = c.vars →
      Simulates c' (block c'.scope.ancestors) n (c'.run bindings inner)) :
    Simulates c (.inScope runtime i c.scope.ancestors c.vars block) (n + 1)
      (c.run bindings (.enterScope :: (inner ++ [.leaveScope]))) := by
  rw [run, step_enterScope hpending, ScopeStack.enter_eq hbound]
  unfold Meaning.inScope
  obtain ⟨enter, frame, hopened⟩ : ∃ enter frame,
      runtime.opened i c.scope.ancestors = (enter, frame) := ⟨_, _, rfl⟩
  rw [hopened]
  cases frame with
  | error e => exact fail (n + 1)
  | ok frame =>
    obtain rfl := ScopeStack.running_of_opened hopened
    have hinner := hblock { c with scope := c.scope.push frame, pending := none } rfl
    rw [ScopeStack.ancestors_push] at hinner
    have hc := hinner.calls
    have hv := hinner.vars
    have ho := hinner.output
    simp only [Success.mapError_ok]
    simp only [ScopeStack.isEmpty_push] at ho
    cases hm : (block (c.scope.ancestors ++ [frame])).result with
    | error e =>
      have herror := hinner.result.trans hm
      rw [run_append_of_error herror]
      refine ⟨?_, herror, hv, ?_, fun h => by simp [Meaning.fail] at h⟩
      · show enter ++ _ = enter ++ _
        rw [hc]
      · simpa [Meaning.fail] using ho
    | ok u =>
      rw [run_append_of_ok (hinner.result.trans hm)]
      simp only [run_singleton, step_leaveScope hbound (hinner.scope hm), hc, hv, ho]
      obtain ⟨leave, result⟩ := runtime.closed frame c.scope.ancestors
        (block (c.scope.ancestors ++ [frame])).results
      cases result with
      | error e =>
        refine ⟨?_, rfl, rfl, ?_, fun h => by simp [Meaning.fail] at h⟩
        · simp [Meaning.fail]
        · simp [Meaning.fail]
      | ok v => exact ⟨by simp, rfl, rfl, by simp, fun _ => rfl⟩

/-- The code of an invocation whose keyword has a scope hook. -/
theorem invoke {c : ExecutionContext} {n : Invocation} {runtime : RuntimeInfo}
    {start : List Instruction} {inner : Fragment} {block : List Frame → Meaning} {opened : Nat}
    (hbound : bindings.runtime? n.keyword = some runtime) (hopens : Opening n start)
    (hblock : ∀ c' : ExecutionContext, c'.vars = c.vars →
      Simulates c' (block c'.scope.ancestors) opened (c'.run bindings inner)) :
    Simulates c
      (match n.instantiate c.vars with
        | .error e => .fail c.vars [] e
        | .ok i => .inScope runtime i c.scope.ancestors c.vars block) (opened + 1)
      (c.run bindings (start ++ [.enterScope] ++ inner ++ [.leaveScope])) := by
  have hcode : start ++ [Instruction.enterScope] ++ inner ++ [.leaveScope] =
      start ++ (.enterScope :: (inner ++ [.leaveScope])) := by simp
  rw [hcode]
  obtain ⟨i, hi, hrun⟩ | ⟨e, p, hi, hrun⟩ := @run_opening bindings n start hopens c
  · have hresult : (c.run bindings start).result = .ok () := by rw [hrun]
    have hkeyword : i.keyword = n.keyword := keyword_of_instantiate hi
    rw [run_append_of_ok hresult, hi, hrun]
    have h := inScope (c := { c with pending := some i }) rfl (hkeyword ▸ hbound) hblock
    exact ⟨h.calls, h.result, h.vars, h.output, h.scope⟩
  · have hresult : (c.run bindings start).result = .error e := by rw [hrun]
    rw [run_append_of_error hresult, hi, hrun]
    exact fail (opened + 1)

end Simulates

/-- Emitted code simulates the statements that it was emitted for. -/
theorem simulates_of_emits {l : List Statement} {f : Fragment} (h : Emits bindings l f)
    (c : ExecutionContext) :
    Simulates c (statementsMeaning bindings c.scope.ancestors c.vars l)
      (scopedInvocations bindings l).length (c.run bindings f) := by
  induction h generalizing c with
  | nil =>
    simpa using Simulates.done c c.vars
  | @assign target value span rest code following ih =>
    rw [statementsMeaning_cons, scopedInvocations_assign]
    exact (Simulates.assign c target value span).cons fun c' hc' => hc' ▸ ih c'
  | @evaluate e span rest code following ih =>
    rw [statementsMeaning_cons, scopedInvocations_evaluate]
    exact (Simulates.evaluate c e span).cons fun c' hc' => hc' ▸ ih c'
  | @invoke n runtime start inner rest code bound opens block following ihblock ih =>
    rw [statementsMeaning_cons, scopedInvocations_invoke bindings bound, List.length_append]
    refine Simulates.append ?_ fun c' hc' => hc' ▸ ih c'
    unfold Statement.meaning withScope
    rw [Invocation.meaning_eq bindings bound]
    by_cases hscope : runtime.usesScope = true
    · rw [if_pos hscope, if_pos hscope, if_pos hscope, List.length_append, Nat.add_comm]
      exact Simulates.invoke bound opens fun c' hc' => hc' ▸ ihblock c'
    · rw [if_neg hscope, if_neg hscope, if_neg hscope, List.nil_append]
      exact ihblock c

/-! ### A sample

The suite opens a scope with both hooks, its setup one with the enter hook and its checks one with
the leave hook, which fails for a check without a count.
-/

namespace Sample

/-- The module of the sample keywords. -/
def module : ModuleRef := ⟨⟨7⟩, "Checks", "1.0"⟩

/-- A mandatory text in first place. -/
def title : ParameterSpec := ⟨"Title", "string", .empty, .ofList [(allSets, ⟨some 0, true⟩)]⟩

/-- A number that is only named. -/
def count : ParameterSpec := ⟨"Count", "int", .empty, .ofList [(allSets, ⟨none, false⟩)]⟩

/-- A mandatory number. -/
def retries : PropertySpec := ⟨"Retries", "int", true, .empty⟩

/-- A keyword with a hashtable body. -/
def setup : KeywordSpec :=
  ⟨"Setup", .hashtable, .optionalMany, none, [], [retries], [], true, module⟩

/-- A keyword without a body. -/
def check : KeywordSpec :=
  ⟨"Check", .command, .optionalMany, none, [count, title], [], [], true, module⟩

/-- A keyword with a block. -/
def suite : KeywordSpec :=
  ⟨"Suite", .scriptBlock, .optionalMany, none, [title], [], [check, setup], false, module⟩

/-- The code behind the sample keywords. -/
def code : Bindings where
  entries := [
    (⟨0, [0]⟩, .of ⟨"Suite", fun _ => none, .ofList [.enterScope, .leaveScope],
      { leaveScope := some fun _ _ children => .ok (.array (children.map (·.getD .null))) }⟩),
    (⟨0, [0, 0]⟩, .of ⟨"Check", fun _ => none, .ofList [.leaveScope],
      { leaveScope := some fun frame _ _ =>
          match frame.running.parameters.get? "Count" with
          | some v => .ok v
          | none => .error ⟨"no count"⟩ }⟩),
    (⟨0, [0, 1]⟩, .of ⟨"Setup", fun _ => none, .ofList [.enterScope], {}⟩)]

/-- A check with a title and, on demand, a count. -/
def checkNamed (title : String) (count : Option Expr) (line : Nat) : Statement :=
  let named := count.map fun e => Element.named "Count" (some e) (.ofLine line)
  .invoke ⟨⟨⟨0, [0, 0]⟩, check⟩,
    named.toList ++ [.positional (.literal (.string title)) (.ofLine line)], none, .ofLine line⟩

/-- A variable is set and read in a suite with a setup and two checks, of which the second has the
given count. -/
def script (second : Option Expr) : List Statement := [
  .assign "n" (.literal (.int 3)) (.ofLine 1),
  .invoke ⟨⟨⟨0, [0]⟩, suite⟩, [.positional (.literal (.string "all")) (.ofLine 2)],
    some (.scriptBlock [
      .invoke ⟨⟨⟨0, [0, 1]⟩, setup⟩, [],
        some (.hashtable [⟨.literal (.string "Retries"), .readVariable "n", .ofLine 3⟩]),
        .ofLine 3⟩,
      checkNamed "one" (some (.readVariable "n")) 4,
      checkNamed "two" second 5] (.ofLine 2)), .ofLine 2⟩]

theorem compiles_of_isOk {second : Option Expr}
    (h : (compileScript bindArguments code (script second)).result.isOk = true) :
    ∃ f, (compileScript bindArguments code (script second)).result = .ok f := by
  cases hresult : (compileScript bindArguments code (script second)).result with
  | ok f => exact ⟨f, rfl⟩
  | error e => simp [hresult, Except.isOk, Except.toBool] at h

end Sample

/-- Executing the code of an accepted script calls the same hooks with the same arguments as
evaluating its statements does, in the frames that are open, and ends with the same variables, the
same output and the same success or error. -/
theorem ExecutionContext.execute_compileScript {script : List Statement} {f : Fragment}
    (h : (compileScript bindArguments bindings script).result = .ok f) (c : ExecutionContext) :
    let m := statementsMeaning bindings c.scope.ancestors c.vars script
    let o := c.execute bindings f
    o.calls = m.calls ∧ o.state.vars = m.vars ∧
      o.state.output = c.output ++ (if c.scope.isEmpty then m.results else []) ∧
      o.result = m.result := by
  have hsim := simulates_of_emits (emits_of_compileScript h) c
  have hresult := hsim.result
  cases hm : (statementsMeaning bindings c.scope.ancestors c.vars script).result with
  | error e =>
    rw [hm] at hresult
    rw [execute_of_error hresult]
    exact ⟨hsim.calls, hsim.vars, hsim.output, hm.symm⟩
  | ok u =>
    rw [hm] at hresult
    rw [execute_of_ok hresult]
    exact ⟨hsim.calls, hsim.vars, hsim.output, hsim.result⟩

/-- The suite with both checks calls five hooks and outputs what its leave hook makes of its
children. -/
theorem ExecutionContext.execute_compileScript_sample :
    ∃ f, (compileScript bindArguments Sample.code
        (Sample.script (some (.literal (.int 1))))).result = .ok f ∧
      (ExecutionContext.empty.execute Sample.code f).calls.length = 5 ∧
      (ExecutionContext.empty.execute Sample.code f).state.output =
        [some (.array [.null, .int 3, .int 1])] ∧
      (ExecutionContext.empty.execute Sample.code f).result = .ok () := by
  have hok : (compileScript bindArguments Sample.code
      (Sample.script (some (.literal (.int 1))))).result.isOk = true := by
    decide +kernel
  obtain ⟨f, hf⟩ := Sample.compiles_of_isOk hok
  obtain ⟨hcalls, -, houtput, hresult⟩ := execute_compileScript hf .empty
  refine ⟨f, hf, ?_, ?_, ?_⟩
  · rw [hcalls]
    decide +kernel
  · rw [houtput]
    decide +kernel
  · rw [hresult]
    decide +kernel

end KeywordEngine
