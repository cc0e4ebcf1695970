import KeywordEngine.Proofs.Meaning
import KeywordEngine.Proofs.Success

/-!
# The machine

What the instructions of a fragment do to a context, said once for each of them, so that nothing else
has to look into the machine.

* `run_append_of_ok`, `run_append_of_error`: code runs in parts.
* `step_instantiate` to `step_enterScope`, `step_leaveScope`: one instruction.
* `ScopeStack.collect`: the stack after scopes on top of it opened and closed.
* `execute_of_ok`, `execute_of_error`: only a failure takes frames off the stack.
-/

namespace KeywordEngine

variable {bindings : Bindings}

/-! ## Running code in parts -/

namespace ExecutionContext

@[simp] theorem run_nil (c : ExecutionContext) : c.run bindings [] = ⟨c, [], .ok ()⟩ := rfl

theorem run_append_of_error {c : ExecutionContext} {f g : Fragment} {e : ExecutionError}
    (h : (c.run bindings f).result = .error e) : c.run bindings (f ++ g) = c.run bindings f := by
  induction f generalizing c with
  | nil => simp at h
  | cons i rest ih =>
    rw [List.cons_append, run, run]
    rw [run] at h
    cases hfirst : (c.step bindings i).result with
    | error e' => simp
    | ok u =>
      simp only [hfirst] at h ⊢
      rw [ih h]

theorem run_append_of_ok {c : ExecutionContext} {f g : Fragment}
    (h : (c.run bindings f).result = .ok ()) :
    c.run bindings (f ++ g) =
      let first := c.run bindings f
      let others := first.state.run bindings g
      ⟨others.state, first.calls ++ others.calls, others.result⟩ := by
  induction f generalizing c with
  | nil => simp
  | cons i rest ih =>
    rw [List.cons_append, run, run]
    rw [run] at h
    cases hfirst : (c.step bindings i).result with
    | error e' => simp [hfirst] at h
    | ok u =>
      simp only [hfirst] at h ⊢
      rw [ih h]
      simp

theorem run_singleton (c : ExecutionContext) (i : Instruction) :
    c.run bindings [i] = c.step bindings i := by
  rw [run]
  cases hfirst : (c.step bindings i).result with
  | error e => simp [← hfirst]
  | ok u => simp [← hfirst]

theorem execute_of_ok {c : ExecutionContext} {f : Fragment}
    (h : (c.run bindings f).result = .ok ()) : c.execute bindings f = c.run bindings f := by
  simp only [execute, h]

theorem execute_of_error {c : ExecutionContext} {f : Fragment} {e : ExecutionError}
    (h : (c.run bindings f).result = .error e) :
    c.execute bindings f =
      ⟨(c.run bindings f).state.unwind c.scope.depth, (c.run bindings f).calls, .error e⟩ := by
  simp only [execute, h]

theorem calls_execute (c : ExecutionContext) (f : Fragment) :
    (c.execute bindings f).calls = (c.run bindings f).calls := by
  cases h : (c.run bindings f).result with
  | error e => rw [execute_of_error h]
  | ok u => rw [execute_of_ok h]

/-! ## Steps -/

variable {c : ExecutionContext}

theorem step_instantiate (k : Keyword) (set : String) (arguments : List Plan) :
    c.step bindings (.instantiate k set arguments) =
      match instantiate c.vars k set arguments with
      | .ok i => ⟨{ c with pending := some i }, [], .ok ()⟩
      | .error e => ⟨c, [], .error e⟩ := by
  simp only [step]
  cases instantiate c.vars k set arguments <;> rfl

theorem step_assignProperties (properties : List Plan) :
    c.step bindings (.assignProperties properties) =
      match resolvePlans c.vars properties, c.pending with
      | .ok values, some i => ⟨{ c with pending := some (i.setProperties values) }, [], .ok ()⟩
      | .ok _, none => ⟨c, [], .error .noPendingInstance⟩
      | .error e, _ => ⟨c, [], .error e⟩ := by
  simp only [step]
  cases resolvePlans c.vars properties <;> cases c.pending <;> rfl

theorem step_assign (target : String) (value : Expr) :
    c.step bindings (.assign target value) =
      match evaluate c.vars value with
      | .ok v => ⟨c.setVariable target v, [], .ok ()⟩
      | .error e => ⟨c, [], .error e⟩ := by
  simp only [step]
  cases evaluate c.vars value <;> rfl

theorem step_evaluate (e : Expr) :
    c.step bindings (.evaluate e) =
      match evaluate c.vars e with
      | .ok _ => ⟨c, [], .ok ()⟩
      | .error error => ⟨c, [], .error error⟩ := by
  simp only [step]
  cases evaluate c.vars e <;> rfl

theorem step_enterScope {i : Instance} (h : c.pending = some i) :
    c.step bindings .enterScope =
      let o := c.scope.enter bindings i
      ⟨{ c with scope := o.state, pending := none }, o.calls, o.result.mapError .scope⟩ := by
  simp only [step, h]

end ExecutionContext

/-! ## The stack -/

namespace ScopeStack

/-- The stack after `opened` scopes opened on top of it and closed, of which those opened directly
on it gave `results`. -/
def collect (s : ScopeStack) (results : List (Option Value)) (opened : Nat) : ScopeStack :=
  ⟨s.frames, s.results.modifyHead (· ++ results), s.enters + opened, s.leaves + opened⟩

theorem collect_nil (s : ScopeStack) : s.collect [] 0 = s := by
  obtain ⟨frames, results, enters, leaves⟩ := s
  cases results <;> simp [collect]

theorem collect_collect (s : ScopeStack) (r₁ r₂ : List (Option Value)) (n₁ n₂ : Nat) :
    (s.collect r₁ n₁).collect r₂ n₂ = s.collect (r₁ ++ r₂) (n₁ + n₂) := by
  have hr : (fun r : List (Option Value) => r ++ (r₁ ++ r₂)) = (· ++ r₂) ∘ (· ++ r₁) := by
    funext r
    simp
  simp [collect, List.modifyHead_modifyHead, hr, Nat.add_assoc]

@[simp] theorem ancestors_collect (s : ScopeStack) (results : List (Option Value)) (n : Nat) :
    (s.collect results n).ancestors = s.ancestors := rfl

@[simp] theorem isEmpty_collect (s : ScopeStack) (results : List (Option Value)) (n : Nat) :
    (s.collect results n).isEmpty = s.isEmpty := rfl

@[simp] theorem ancestors_push (s : ScopeStack) (f : Frame) :
    (s.push f).ancestors = s.ancestors ++ [f] := by
  simp [push, ancestors]

@[simp] theorem isEmpty_push (s : ScopeStack) (f : Frame) : (s.push f).isEmpty = false := rfl

theorem report_eq (s : ScopeStack) (result : Option Value) :
    s.report result = { s with results := s.results.modifyHead (· ++ [result]) } := by
  obtain ⟨frames, results, enters, leaves⟩ := s
  cases results <;> rfl

variable {runtime : RuntimeInfo}

/-- Opening a scope calls the enter hook and pushes the frame. -/
theorem enter_eq {i : Instance} (h : bindings.runtime? i.keyword = some runtime) (s : ScopeStack) :
    s.enter bindings i =
      match runtime.opened i s.ancestors with
      | (calls, .ok frame) => ⟨s.push frame, calls, .ok ()⟩
      | (calls, .error e) => ⟨s, calls, .error (.hook e)⟩ := by
  unfold enter RuntimeInfo.opened
  simp only [h]
  split
  · cases runtime.implementation.enterScope i s.ancestors <;> rfl
  · rfl

theorem running_of_opened {i : Instance} {ancestors : List Frame} {calls : List ScopeCall}
    {frame : Frame} (h : runtime.opened i ancestors = (calls, .ok frame)) : frame.running = i := by
  unfold RuntimeInfo.opened at h
  split at h
  · cases hi : runtime.implementation.enterScope i ancestors with
    | error e => simp [hi, Except.map] at h
    | ok v =>
      simp only [hi, Except.map, Prod.mk.injEq, Except.ok.injEq] at h
      rw [← h.2]
  · simp only [Prod.mk.injEq, Except.ok.injEq] at h
    rw [← h.2]

/-- Closing the scope of a frame, after scopes on top of it closed, calls the leave hook and hands
the result to the level below. -/
theorem leave_collect_push {frame : Frame}
    (h : bindings.runtime? frame.running.keyword = some runtime) (s : ScopeStack)
    (children : List (Option Value)) (opened : Nat) :
    ((s.push frame).collect children opened).leave bindings =
      match runtime.closed frame s.ancestors children with
      | (calls, .ok v) => ⟨s.collect [v] (opened + 1), calls, .ok v⟩
      | (calls, .error e) =>
        ⟨⟨s.frames, s.results, s.enters + (opened + 1), s.leaves + (opened + 1)⟩, calls,
          .error (.hook e)⟩ := by
  have henters : s.enters + 1 + opened = s.enters + (opened + 1) := by omega
  unfold leave RuntimeInfo.closed
  simp only [collect, push, List.modifyHead_cons, List.nil_append, h, Option.filter_some]
  by_cases hl : runtime.hasLeaveHook = true
  · have hbelow (r : List (List (Option Value))) (m n : Nat) :
        ancestors ⟨s.frames, r, m, n⟩ = s.ancestors := rfl
    simp only [hl, if_true, hbelow]
    cases runtime.implementation.leaveScope frame s.ancestors children with
    | error e => simp [henters, Except.map, ancestors, Nat.add_assoc]
    | ok v => simp [report_eq, henters, Except.map, ancestors, Nat.add_assoc]
  · simp [hl, report_eq, henters, Nat.add_assoc]

end ScopeStack

namespace ExecutionContext

/-- Closing the scope of a frame in a context; the result of an outermost scope is output. -/
theorem step_leaveScope {c : ExecutionContext} {frame : Frame} {runtime : RuntimeInfo}
    {s : ScopeStack} {children : List (Option Value)} {opened : Nat}
    (h : bindings.runtime? frame.running.keyword = some runtime)
    (hs : c.scope = (s.push frame).collect children opened) :
    c.step bindings .leaveScope =
      match runtime.closed frame s.ancestors children with
      | (calls, .ok v) =>
        ⟨{ c with
            scope := s.collect [v] (opened + 1)
            output := c.output ++ if s.isEmpty then [v] else [] }, calls, .ok ()⟩
      | (calls, .error e) =>
        ⟨{ c with
            scope := ⟨s.frames, s.results, s.enters + (opened + 1), s.leaves + (opened + 1)⟩ },
          calls, .error (.scope (.hook e))⟩ := by
  simp only [step, hs, ScopeStack.leave_collect_push h]
  obtain ⟨calls, result⟩ := runtime.closed frame s.ancestors children
  cases result with
  | error e => rfl
  | ok v =>
    have houtput (outermost : Bool) : (if outermost then c.output ++ [v] else c.output) =
        c.output ++ if outermost then [v] else [] := by
      cases outermost <;> simp
    show (⟨{ c with
      scope := s.collect [v] (opened + 1)
      output := if s.isEmpty then c.output ++ [v] else c.output }, calls, .ok ()⟩ :
        Outcome ExecutionContext ExecutionError Unit) = _
    rw [houtput]

end ExecutionContext

end KeywordEngine
