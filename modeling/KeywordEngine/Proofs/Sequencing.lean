import KeywordEngine.Proofs.Unwinding

/-!
# Scripts in parts

A script may be cut between two statements, and each part compiled and run on its own. The code of
the parts makes up the code of the whole. A part that runs through leaves as many scopes open as it
found; so if a later part fails, its own start and the start of the whole are at the same height,
and the failure takes the stack back to the same frames.

* `compileScript_append`: compilation goes part by part.
* `wellBracketed_compileScript`: code is well bracketed, however arguments are bound.
* `WellBracketed.depth_run`: such code keeps the height of the stack, whatever the context.
* `ExecutionContext.execute_append`: such code may be run part by part.
-/

namespace KeywordEngine

/-! ## Compilation -/

section Compilation

variable {bindArgs : ArgumentBinder} {bindings : Bindings}

/-- A script compiles part by part, with the same calls and the same error. -/
theorem compileScript_append (a b : List Statement) :
    compileScript bindArgs bindings (a ++ b) = (do
      let first ← compileScript bindArgs bindings a
      let others ← compileScript bindArgs bindings b
      return first ++ others) := by
  induction a with
  | nil =>
    show _ = (pure [] >>= _)
    simp only [List.nil_append, pure_bind, bind_pure]
  | cons s rest ih =>
    rw [List.cons_append, compileScript_cons, compileScript_cons, ih]
    simp only [bind_assoc, pure_bind, List.append_assoc]

theorem wellBracketed_compileBody {n : Invocation} {r : RuntimeInfo} {instantiate : Instruction}
    {f : Fragment} (hquiet : instantiate.isScopeOperation = false)
    (hblock : ∀ inner, (compileStatements bindArgs bindings n.block).result = .ok inner →
      WellBracketed inner)
    (h : (n.compileBody bindArgs bindings r instantiate).result = .ok f) : WellBracketed f := by
  have hstart : WellBracketed [instantiate] := .plain hquiet .nil
  cases hfits : n.bodyFits with
  | false =>
    rw [compileBody_of_not_bodyFits _ _ hfits] at h
    exact absurd h Compiled.reject_ne_ok
  | true =>
    obtain ⟨hmode, hbody⟩ | ⟨hmode, hbody⟩ | ⟨hmode, span, hbody⟩ := Invocation.bodyFits_iff.1 hfits
    · rw [compileBody_of_command _ _ hmode hbody] at h
      obtain rfl := Compiled.pure_eq_ok.1 h
      exact hstart.withScope .nil r
    · rw [compileBody_of_hashtable _ _ hmode hbody] at h
      obtain ⟨plans, -, h⟩ := Compiled.bind_eq_ok.1 h
      obtain rfl := Compiled.pure_eq_ok.1 h
      have hplans : WellBracketed [instantiate, .assignProperties plans] :=
        hstart.append (.plain rfl .nil)
      exact hplans.withScope .nil r
    · rw [compileBody_of_scriptBlock _ _ hmode hbody] at h
      obtain ⟨-, -, h⟩ := Compiled.bind_eq_ok.1 h
      obtain ⟨inner, hinner, h⟩ := Compiled.bind_eq_ok.1 h
      obtain rfl := Compiled.pure_eq_ok.1 h
      exact hstart.withScope (hblock inner hinner) r

/-- However arguments are bound, the code of statements is well bracketed. -/
theorem wellBracketed_compileStatements {l : List Statement} {f : Fragment}
    (h : (compileStatements bindArgs bindings l).result = .ok f) : WellBracketed f := by
  induction l using statements_induction generalizing f with
  | nil =>
    rw [compileStatements] at h
    obtain rfl := Compiled.pure_eq_ok.1 h
    exact .nil
  | assign target value span rest ih =>
    rw [compileStatements_cons, compileStatement] at h
    obtain ⟨first, others, hfirst, hothers, rfl⟩ := Compiled.append_eq_ok.1 h
    obtain rfl := Compiled.pure_eq_ok.1 hfirst
    exact .plain rfl (ih hothers)
  | evaluate e span rest ih =>
    rw [compileStatements_cons, compileStatement] at h
    obtain ⟨first, others, hfirst, hothers, rfl⟩ := Compiled.append_eq_ok.1 h
    obtain rfl := Compiled.pure_eq_ok.1 hfirst
    exact .plain rfl (ih hothers)
  | invoke n rest ihblock ih =>
    rw [compileStatements_cons, compileStatement] at h
    obtain ⟨first, others, hfirst, hothers, rfl⟩ := Compiled.append_eq_ok.1 h
    obtain ⟨runtime, bound, -, -, hbody⟩ := compileBody_of_compileInvocation hfirst
    have hcode : WellBracketed first := wellBracketed_compileBody rfl (fun _ => ihblock) hbody
    exact hcode.append (ih hothers)

theorem wellBracketed_compileScript {script : List Statement} {f : Fragment}
    (h : (compileScript bindArgs bindings script).result = .ok f) : WellBracketed f :=
  wellBracketed_compileStatements (compileStatements_of_compileScript h)

end Compilation

/-! ## Heights -/

variable {bindings : Bindings}

namespace ExecutionContext

variable {c c' : ExecutionContext} {f g : Fragment}

/-- The code runs through and leaves `c'`. -/
structure RunsTo (bindings : Bindings) (c : ExecutionContext) (f : Fragment)
    (c' : ExecutionContext) : Prop where
  result : (c.run bindings f).result = .ok ()
  state : (c.run bindings f).state = c'

theorem runsTo_append (h : c.RunsTo bindings (f ++ g) c') :
    ∃ d, c.RunsTo bindings f d ∧ d.RunsTo bindings g c' := by
  obtain ⟨hresult, hstate⟩ := h
  cases hf : (c.run bindings f).result with
  | error e =>
    rw [run_append_of_error hf, hf] at hresult
    cases hresult
  | ok u =>
    rw [run_append_of_ok hf] at hresult hstate
    exact ⟨_, ⟨hf, rfl⟩, hresult, hstate⟩

theorem runsTo_cons {i : Instruction} (h : c.RunsTo bindings (i :: f) c') :
    ∃ d, c.RunsTo bindings [i] d ∧ d.RunsTo bindings f c' := runsTo_append (f := [i]) h

theorem RunsTo.depth_of_quiet {i : Instruction} (h : c.RunsTo bindings [i] c')
    (hquiet : i.isScopeOperation = false) : c'.scope.depth = c.scope.depth := by
  obtain ⟨-, rfl⟩ := h
  have hnone : c.scopeRequest? bindings i = none := by
    cases i <;> first | rfl | cases hquiet
  rw [run_singleton, (c.scope_step bindings i).1, hnone]
  rfl

theorem RunsTo.depth_enterScope (h : c.RunsTo bindings [.enterScope] c') :
    c'.scope.depth = c.scope.depth + 1 := by
  obtain ⟨hresult, rfl⟩ := h
  rw [run_singleton] at hresult ⊢
  cases hp : c.pending with
  | none => simp [step, hp] at hresult
  | some i =>
    rw [step_enterScope hp] at hresult ⊢
    have henters := c.scope.enters_enter bindings i
    generalize c.scope.enter bindings i = o at henters hresult ⊢
    cases henters with
    | opened answer => rfl
    | failed answer => cases hresult

theorem RunsTo.depth_leaveScope (h : c.RunsTo bindings [.leaveScope] c') :
    c'.scope.depth + 1 = c.scope.depth := by
  obtain ⟨hresult, rfl⟩ := h
  rw [run_singleton] at hresult ⊢
  obtain ⟨-, hleave⟩ | ⟨frame, frames, children, results, hframes, -, hleaves⟩ :=
    c.scope.leave_cases bindings
  · simp [step, hleave] at hresult
  · have hserve : c.scope.serveAll [.leave bindings] = (c.scope.leave bindings).state := rfl
    rw [(c.scope_step bindings .leaveScope).1, scopeRequest?, Option.toList_some, hserve]
    generalize c.scope.leave bindings = o at hleaves
    cases hleaves <;> simp [ScopeStack.depth, hframes]

end ExecutionContext

/-- Well-bracketed code that runs through leaves as many scopes open as it found. -/
theorem WellBracketed.depth_run {f : Fragment} (h : WellBracketed f) {c c' : ExecutionContext}
    (hrun : c.RunsTo bindings f c') : c'.scope.depth = c.scope.depth := by
  induction h generalizing c c' with
  | nil =>
    obtain ⟨-, rfl⟩ := hrun
    rfl
  | plain quiet following ih =>
    obtain ⟨d, hfirst, hrest⟩ := ExecutionContext.runsTo_cons hrun
    exact (ih hrest).trans (hfirst.depth_of_quiet quiet)
  | scope block following ihblock ih =>
    obtain ⟨opened, henter, hrun⟩ := ExecutionContext.runsTo_cons hrun
    obtain ⟨closing, hinner, hrun⟩ := ExecutionContext.runsTo_append hrun
    obtain ⟨closed, hleave, hrest⟩ := ExecutionContext.runsTo_cons hrun
    have hopened : opened.scope.depth = c.scope.depth + 1 := henter.depth_enterScope
    have hclosing : closing.scope.depth = opened.scope.depth := ihblock hinner
    have hclosed : closed.scope.depth + 1 = closing.scope.depth := hleave.depth_leaveScope
    have hend : c'.scope.depth = closed.scope.depth := ih hrest
    omega

/-! ## Execution -/

namespace ExecutionContext

/-- Runs two fragments one after the other, the second only if the first succeeds. -/
def executeThen (bindings : Bindings) (c : ExecutionContext) (f g : Fragment) :
    Outcome ExecutionContext ExecutionError Unit :=
  let first := c.execute bindings f
  match first.result with
  | .error _ => first
  | .ok () =>
    let others := first.state.execute bindings g
    ⟨others.state, first.calls ++ others.calls, others.result⟩

/-- What stands behind well-bracketed code may be run on its own. -/
theorem execute_append {f : Fragment} (hf : WellBracketed f) (g : Fragment) (c : ExecutionContext) :
    c.execute bindings (f ++ g) = c.executeThen bindings f g := by
  cases hfirst : (c.run bindings f).result with
  | error e =>
    have hwhole : c.execute bindings (f ++ g) = c.execute bindings f := by
      unfold execute
      rw [run_append_of_error hfirst]
    unfold executeThen
    rw [hwhole, execute_of_error hfirst]
  | ok u =>
    have hwhole := run_append_of_ok (g := g) hfirst
    have hresult : (c.run bindings (f ++ g)).result =
        ((c.run bindings f).state.run bindings g).result := by
      rw [hwhole]
    -- both runs of `g` cut the stack back to the same height
    have hdepth : (c.run bindings f).state.scope.depth = c.scope.depth :=
      hf.depth_run ⟨hfirst, rfl⟩
    unfold executeThen
    rw [execute_of_ok hfirst]
    simp only [hfirst]
    cases hothers : ((c.run bindings f).state.run bindings g).result with
    | ok u => rw [execute_of_ok (hresult.trans hothers), execute_of_ok hothers, hwhole]
    | error e =>
      rw [execute_of_error (hresult.trans hothers), execute_of_error hothers, hwhole, hdepth]

end ExecutionContext

/-- A script is accepted if and only if its parts are, however arguments are bound. Its code is then
that of its parts, and to execute it in any context and with any scope hooks is to execute the code
of the first part and, if that succeeds, the code of the second: the result, the context that is
left and the hooks called are the same, also in failure. -/
theorem compileScript_append_iff_execute {bindArgs : ArgumentBinder} {bindings : Bindings}
    (a b : List Statement) :
    ((compileScript bindArgs bindings (a ++ b)).Succeeds ↔
      (compileScript bindArgs bindings a).Succeeds ∧
        (compileScript bindArgs bindings b).Succeeds) ∧
      ∀ f g, (compileScript bindArgs bindings a).result = .ok f →
        (compileScript bindArgs bindings b).result = .ok g →
        (compileScript bindArgs bindings (a ++ b)).result = .ok (f ++ g) ∧
          ∀ (hooks : Bindings) (c : ExecutionContext),
            c.execute hooks (f ++ g) = c.executeThen hooks f g := by
  rw [compileScript_append]
  refine ⟨Compiled.succeeds_append, fun f g hf hg => ⟨?_, fun hooks c => ?_⟩⟩
  · exact Compiled.append_eq_ok.2 ⟨f, g, hf, hg, rfl⟩
  · exact ExecutionContext.execute_append (wellBracketed_compileScript hf) g c

/-- In a suite that is open, a suite runs through and a second one fails in its last check. -/
theorem compileScript_append_sample :
    ∃ f g, (compileScript bindArguments Sample.code
        (Sample.script (some (.literal (.int 1))) ++ Sample.script none)).result = .ok (f ++ g) ∧
      Sample.inSuite.execute Sample.code (f ++ g) =
        Sample.inSuite.executeThen Sample.code f g ∧
      (Sample.inSuite.execute Sample.code f).result = .ok () ∧
      (Sample.inSuite.executeThen Sample.code f g).result =
        .error (.scope (.hook ⟨"no count"⟩)) := by
  have hfirst : (compileScript bindArguments Sample.code
      (Sample.script (some (.literal (.int 1))))).result.isOk = true := by
    decide +kernel
  have hsecond : (compileScript bindArguments Sample.code (Sample.script none)).result.isOk =
      true := by
    decide +kernel
  obtain ⟨f, hf⟩ := Sample.compiles_of_isOk hfirst
  obtain ⟨g, hg⟩ := Sample.compiles_of_isOk hsecond
  obtain ⟨-, hparts⟩ := @compileScript_append_iff_execute bindArguments Sample.code
    (Sample.script (some (.literal (.int 1)))) (Sample.script none)
  obtain ⟨hfg, hexecute⟩ := hparts f g hf hg
  have hrun (script : List Statement) (f : Fragment)
      (h : (compileScript bindArguments Sample.code script).result = .ok f) :=
    (simulates_of_emits (emits_of_compileScript h) Sample.inSuite).result
  have hok : (Sample.inSuite.run Sample.code f).result = .ok () := by
    rw [hrun _ _ hf]
    decide +kernel
  have herror : (Sample.inSuite.run Sample.code (f ++ g)).result =
      .error (.scope (.hook ⟨"no count"⟩)) := by
    rw [hrun _ _ hfg]
    decide +kernel
  refine ⟨f, g, hfg, hexecute _ _, ?_, ?_⟩
  · rw [ExecutionContext.execute_of_ok hok, hok]
  · rw [← hexecute, ExecutionContext.execute_of_error herror]

end KeywordEngine
