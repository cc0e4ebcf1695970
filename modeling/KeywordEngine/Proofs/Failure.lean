import KeywordEngine.Proofs.Compilation

/-!
# Failed computations

Which failures a computation may have, with a rule for each way to put computations together.

* `FailsOnly`: the checks of one invocation.
* `Compiled.RejectsOnly`: compilation, where hooks may raise as well.
* `Compiled.bind_of_error`: after a failure nothing follows.
-/

namespace KeywordEngine

/-! ## Checks -/

/-- Every failure of the computation is one that `P` allows. -/
def FailsOnly {ε α : Type} (P : ε → Prop) (x : Except ε α) : Prop := ∀ e, x = .error e → P e

namespace FailsOnly

variable {ε α β : Type} {P Q : ε → Prop} {x : Except ε α}

theorem ok (a : α) : FailsOnly P (.ok a : Except ε α) := nofun

theorem error {e : ε} (h : P e) : FailsOnly P (.error e : Except ε α) := by
  intro e' heq
  obtain rfl := Except.error.inj heq
  exact h

theorem mono (h : FailsOnly P x) (hPQ : ∀ e, P e → Q e) : FailsOnly Q x :=
  fun e he => hPQ e (h e he)

theorem bind {f : α → Except ε β} (hx : FailsOnly P x)
    (hf : ∀ a, x = .ok a → FailsOnly P (f a)) : FailsOnly P (x >>= f) := by
  cases x with
  | error e => exact .error (hx e rfl)
  | ok a => exact hf a rfl

theorem map {f : α → β} (hx : FailsOnly P x) : FailsOnly P (x.map f) := by
  cases x with
  | error e => exact .error (hx e rfl)
  | ok a => exact .ok (f a)

theorem mapM {f : α → Except ε β} {l : List α} (h : ∀ a ∈ l, FailsOnly P (f a)) :
    FailsOnly P (l.mapM f) := by
  induction l with
  | nil =>
    rw [List.mapM_nil]
    exact .ok []
  | cons a rest ih =>
    rw [List.forall_mem_cons] at h
    rw [List.mapM_cons]
    exact h.1.bind fun b _ => (ih h.2).bind fun bs _ => .ok (b :: bs)

end FailsOnly

/-! ## Compilation -/

namespace Compiled

variable {α β : Type} {P Q : InvocationError → Prop} {x : Compiled α}

theorem bind_of_ok {a : α} (h : x.result = .ok a) (f : α → Compiled β) :
    x >>= f = ⟨x.calls ++ (f a).calls, (f a).result⟩ := by
  obtain ⟨calls, result⟩ := x
  obtain rfl : result = .ok a := h
  rfl

/-- After a failure nothing follows. -/
theorem bind_of_error {e : CompileError} (h : x.result = .error e)
    (f : α → Compiled β) : x >>= f = ⟨x.calls, .error e⟩ := by
  obtain ⟨calls, result⟩ := x
  obtain rfl : result = .error e := h
  rfl

/-- Every rejection by the computation is one that `P` allows. -/
def RejectsOnly (P : InvocationError → Prop) (x : Compiled α) : Prop :=
  ∀ e, x.result = .error (.invocation e) → P e

namespace RejectsOnly

theorem pure (a : α) : RejectsOnly P (Pure.pure a : Compiled α) := nofun

theorem mono (h : RejectsOnly P x) (hPQ : ∀ e, P e → Q e) : RejectsOnly Q x :=
  fun e he => hPQ e (h e he)

theorem bind {f : α → Compiled β} (hx : RejectsOnly P x) (hf : ∀ a, RejectsOnly P (f a)) :
    RejectsOnly P (x >>= f) := by
  intro e he
  obtain ⟨calls, result⟩ := x
  cases result with
  | error e' =>
    obtain rfl := Except.error.inj he
    exact hx e rfl
  | ok a => exact hf a e he

theorem reject {keyword : String} {span : Span} {reason : Rejection}
    (h : P ⟨keyword, span, reason⟩) :
    RejectsOnly P (Compiled.reject keyword span reason : Compiled α) := by
  intro e he
  obtain rfl := CompileError.invocation.inj (Except.error.inj he)
  exact h

theorem ofCheck {r : Except InvocationError α} (h : FailsOnly P r) :
    RejectsOnly P (Compiled.ofCheck r) := by
  intro e he
  cases r with
  | ok a => cases he
  | error e' =>
    obtain rfl := CompileError.invocation.inj (Except.error.inj he)
    exact h _ rfl

theorem ofHook {call : ParseCall} {keyword : String} {span : Span}
    {outcome : Except HookError (List Diagnostic)}
    (h : ∀ diagnostics, P ⟨keyword, span, .parseErrors diagnostics⟩) :
    RejectsOnly P (Compiled.ofHook call keyword span outcome) := by
  intro e he
  unfold Compiled.ofHook at he
  cases outcome with
  | error e' => cases he
  | ok diagnostics =>
    cases diagnostics with
    | nil => cases he
    | cons d rest =>
      obtain rfl := CompileError.invocation.inj (Except.error.inj he)
      exact h _

end RejectsOnly

end Compiled

end KeywordEngine
