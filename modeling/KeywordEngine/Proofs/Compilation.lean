import KeywordEngine.Compilation
import KeywordEngine.Proofs.Success
import KeywordEngine.Proofs.Tree

/-!
# Compilation of one invocation

What happens while an invocation compiles, in order: `preParse`, the arguments, `postParse`, the
body, `semanticCheck`.

* `Compiled.succeeds_bind`: when a sequence of steps succeeds.
* `RuntimeInfo.runPreParse_eq_ok` and its companions: when a hook lets an invocation pass.
* `compileInvocation_eq`: an invocation of a bound keyword, with its body as one step
  (`Invocation.compileBody`); `compileBody_of_compileInvocation`: what its success tells.
* `Invocation.bodyFits_iff`: the shapes that a body may have, each with its own code
  (`compileBody_of_command` and its companions).
-/

namespace KeywordEngine

/-! ## Outcomes -/

namespace Compiled

variable {α β γ : Type}

private theorem id_map_eq (x : Compiled α) : id <$> x = x := by
  obtain ⟨calls, result⟩ := x
  cases result <;> simp [Functor.map, Compiled.bind, Compiled.pure]

private theorem pure_bind_eq (a : α) (f : α → Compiled β) : (pure a >>= f) = f a := by
  show (⟨[] ++ (f a).calls, (f a).result⟩ : Compiled β) = f a
  rw [List.nil_append]

private theorem bind_assoc_eq (x : Compiled α) (f : α → Compiled β) (g : β → Compiled γ) :
    (x >>= f >>= g) = (x >>= fun a => f a >>= g) := by
  obtain ⟨calls, result⟩ := x
  show Compiled.bind (Compiled.bind _ f) g = Compiled.bind _ fun a => Compiled.bind (f a) g
  unfold Compiled.bind
  cases result with
  | error e => rfl
  | ok a => cases h : (f a).result <;> simp [h]

instance : LawfulMonad Compiled :=
  LawfulMonad.mk' Compiled id_map_eq pure_bind_eq bind_assoc_eq

end Compiled

/-! ## Success -/

namespace Compiled

variable {α β : Type}

theorem bind_eq_ok {x : Compiled α} {f : α → Compiled β} {b : β} :
    (x >>= f).result = .ok b ↔ ∃ a, x.result = .ok a ∧ (f a).result = .ok b := by
  show (x.bind f).result = _ ↔ _
  unfold Compiled.bind
  split
  · rename_i a h
    simp [h]
  · rename_i e h
    simp [h]

theorem pure_eq_ok {a b : α} : (pure a : Compiled α).result = .ok b ↔ a = b := by
  show (Except.ok a : Except CompileError α) = .ok b ↔ _
  simp

theorem ofCheck_eq_ok {r : Except InvocationError α} {a : α} :
    (ofCheck r).result = .ok a ↔ r = .ok a := by
  show r.mapError _ = _ ↔ _
  exact Success.mapError_eq_ok

theorem reject_ne_ok {keyword : String} {span : Span} {reason : Rejection} {a : α} :
    (reject keyword span reason : Compiled α).result ≠ .ok a := by
  simp [reject]

/-- An outcome that is a success. -/
def Succeeds (x : Compiled α) : Prop := ∃ a, x.result = .ok a

@[simp] theorem succeeds_pure (a : α) : (pure a : Compiled α).Succeeds := ⟨a, rfl⟩

theorem succeeds_bind {x : Compiled α} {f : α → Compiled β} :
    (x >>= f).Succeeds ↔ ∃ a, x.result = .ok a ∧ (f a).Succeeds := by
  simp only [Succeeds, bind_eq_ok]
  rw [exists_comm]
  simp only [exists_and_left]

/-- What follows does not matter if it always succeeds. -/
theorem succeeds_bind_of_forall {x : Compiled α} {f : α → Compiled β}
    (h : ∀ a, (f a).Succeeds) : (x >>= f).Succeeds ↔ x.Succeeds := by
  rw [succeeds_bind]
  exact exists_congr fun a => and_iff_left (h a)

theorem append_eq_ok {x y : Compiled Fragment} {f : Fragment} :
    (do return (← x) ++ (← y) : Compiled Fragment).result = .ok f ↔
      ∃ first others, x.result = .ok first ∧ y.result = .ok others ∧ first ++ others = f := by
  simp only [bind_eq_ok, pure_eq_ok, exists_and_left]

theorem succeeds_append {x y : Compiled Fragment} :
    (do return (← x) ++ (← y) : Compiled Fragment).Succeeds ↔ x.Succeeds ∧ y.Succeeds := by
  rw [succeeds_bind]
  simp only [succeeds_bind_of_forall fun _ => succeeds_pure _]
  exact exists_and_right

theorem succeeds_ofCheck {r : Except InvocationError α} :
    (ofCheck r).Succeeds ↔ ∃ a, r = .ok a := by
  simp only [Succeeds, ofCheck_eq_ok]

end Compiled

/-! ## Hooks -/

namespace Compiled

theorem ofHook_eq_ok {call : ParseCall} {keyword : String} {span : Span}
    {outcome : Except HookError (List Diagnostic)} {u : Unit} :
    (ofHook call keyword span outcome).result = .ok u ↔ outcome = .ok [] := by
  unfold ofHook
  cases outcome with
  | error e => simp
  | ok diagnostics => cases diagnostics <;> simp

end Compiled

namespace RuntimeInfo

variable {r : RuntimeInfo} {n : Invocation} {u : Unit}

theorem runPreParse_eq_ok :
    (r.runPreParse n).result = .ok u ↔
      (r.hooks.contains .preParse = true → r.implementation.preParse n.keyword = .ok []) := by
  unfold runPreParse
  split
  · rename_i h
    rw [Compiled.ofHook_eq_ok]
    exact ⟨fun hquiet _ => hquiet, fun hquiet => hquiet h⟩
  · rename_i h
    exact ⟨fun _ hcontains => absurd hcontains h, fun _ => rfl⟩

theorem runPostParse_eq_ok :
    (r.runPostParse n).result = .ok u ↔
      (r.hooks.contains .postParse = true → r.implementation.postParse n = .ok []) := by
  unfold runPostParse
  split
  · rename_i h
    rw [Compiled.ofHook_eq_ok]
    exact ⟨fun hquiet _ => hquiet, fun hquiet => hquiet h⟩
  · rename_i h
    exact ⟨fun _ hcontains => absurd hcontains h, fun _ => rfl⟩

theorem runSemanticCheck_eq_ok :
    (r.runSemanticCheck n).result = .ok u ↔
      (r.hooks.contains .semanticCheck = true → r.implementation.semanticCheck n = .ok []) := by
  unfold runSemanticCheck
  split
  · rename_i h
    rw [Compiled.ofHook_eq_ok]
    exact ⟨fun hquiet _ => hquiet, fun hquiet => hquiet h⟩
  · rename_i h
    exact ⟨fun _ hcontains => absurd hcontains h, fun _ => rfl⟩

end RuntimeInfo

/-! ## Invocations -/

/-- Whether the body of an invocation has the shape that its keyword wants. -/
def Invocation.bodyFits (n : Invocation) : Bool :=
  match n.keyword.spec.body, n.body with
  | .command, none => true
  | .hashtable, some (.hashtable _) => true
  | .scriptBlock, some (.scriptBlock _ _) => true
  | _, _ => false

/-- The three shapes of a body that fits. -/
theorem Invocation.bodyFits_iff {n : Invocation} : n.bodyFits = true ↔
    (n.keyword.spec.body = .command ∧ n.body = none) ∨
      (n.keyword.spec.body = .hashtable ∧ n.body = some (.hashtable n.entries)) ∨
        (n.keyword.spec.body = .scriptBlock ∧ ∃ span, n.body = some (.scriptBlock n.block span)) := by
  unfold bodyFits entries block
  split <;> simp_all

section Bindings

variable (bindArgs : ArgumentBinder) (bindings : Bindings)

/-- The code of an invocation from its body, with the instruction that makes its instance. -/
def Invocation.compileBody (runtime : RuntimeInfo) (instantiate : Instruction) (n : Invocation) :
    Compiled Fragment :=
  match n.keyword.spec.body, n.body with
  | .command, none => pure (withScope runtime [instantiate] [])
  | .hashtable, some (.hashtable entries) => do
    let plans ← Compiled.ofCheck (planProperties n.keyword.spec entries n.span)
    pure (withScope runtime [instantiate, .assignProperties plans] [])
  | .scriptBlock, some (.scriptBlock statements blockSpan) => do
    Compiled.ofCheck (checkNesting n.keyword statements blockSpan)
    let inner ← compileStatements bindArgs bindings statements
    pure (withScope runtime [instantiate] inner)
  | mode, _ => Compiled.reject n.keyword.name n.span (.malformedBody mode)

section Body

variable {runtime : RuntimeInfo} {instantiate : Instruction} {n : Invocation}

theorem compileBody_of_command (hmode : n.keyword.spec.body = .command) (hbody : n.body = none) :
    n.compileBody bindArgs bindings runtime instantiate =
      pure (withScope runtime [instantiate] []) := by
  unfold Invocation.compileBody
  rw [hmode, hbody]

theorem compileBody_of_hashtable {entries : List HashtableEntry}
    (hmode : n.keyword.spec.body = .hashtable) (hbody : n.body = some (.hashtable entries)) :
    n.compileBody bindArgs bindings runtime instantiate = (do
      let plans ← Compiled.ofCheck (planProperties n.keyword.spec entries n.span)
      pure (withScope runtime [instantiate, .assignProperties plans] [])) := by
  unfold Invocation.compileBody
  rw [hmode, hbody]

theorem compileBody_of_scriptBlock {statements : List Statement} {blockSpan : Span}
    (hmode : n.keyword.spec.body = .scriptBlock)
    (hbody : n.body = some (.scriptBlock statements blockSpan)) :
    n.compileBody bindArgs bindings runtime instantiate = (do
      Compiled.ofCheck (checkNesting n.keyword statements blockSpan)
      let inner ← compileStatements bindArgs bindings statements
      pure (withScope runtime [instantiate] inner)) := by
  unfold Invocation.compileBody
  rw [hmode, hbody]

theorem compileBody_of_not_bodyFits (h : n.bodyFits = false) :
    n.compileBody bindArgs bindings runtime instantiate =
      .reject n.keyword.name n.span (.malformedBody n.keyword.spec.body) := by
  unfold Invocation.bodyFits at h
  unfold Invocation.compileBody
  split at h <;> simp_all

end Body

/-- What happens while an invocation of a bound keyword compiles. -/
theorem compileInvocation_eq {runtime : RuntimeInfo} {n : Invocation}
    (h : bindings.runtime? n.keyword = some runtime) :
    compileInvocation bindArgs bindings n = (do
      runtime.runPreParse n
      let bound ← Compiled.ofCheck (bindArgs n.keyword.spec n.elements n.span)
      runtime.runPostParse n
      let code ← n.compileBody bindArgs bindings runtime
        (.instantiate n.keyword bound.set bound.arguments)
      runtime.runSemanticCheck n
      return code) := by
  obtain ⟨keyword, elements, body, span⟩ := n
  unfold compileInvocation
  unfold Invocation.compileBody
  simp only at h
  simp only [h]
  congr 1
  funext _
  congr 1
  funext bound
  congr 1
  funext _
  cases keyword.spec.body <;> rcases body with _ | e <;> try cases e
  all_goals simp only [bind_assoc, pure_bind]

theorem compileInvocation_of_unbound {n : Invocation}
    (h : bindings.runtime? n.keyword = none) :
    compileInvocation bindArgs bindings n = .reject n.keyword.name n.span .unboundKeyword := by
  obtain ⟨keyword, elements, body, span⟩ := n
  unfold compileInvocation
  simp only at h
  rw [h]

theorem compileStatements_cons (s : Statement) (rest : List Statement) :
    compileStatements bindArgs bindings (s :: rest) = (do
      let first ← compileStatement bindArgs bindings s
      let others ← compileStatements bindArgs bindings rest
      return first ++ others) := by
  rw [compileStatements]

theorem compileScript_cons (s : Statement) (rest : List Statement) :
    compileScript bindArgs bindings (s :: rest) = (do
      let first ← compileTopStatement bindArgs bindings s
      let others ← compileScript bindArgs bindings rest
      return first ++ others) := rfl

end Bindings

/-- An accepted invocation has code, arguments that bind and a body that compiles to its code. -/
theorem compileBody_of_compileInvocation {bindArgs : ArgumentBinder} {bindings : Bindings}
    {n : Invocation} {f : Fragment}
    (h : (compileInvocation bindArgs bindings n).result = .ok f) :
    ∃ runtime bound, bindings.runtime? n.keyword = some runtime ∧
      bindArgs n.keyword.spec n.elements n.span = .ok bound ∧
      (n.compileBody bindArgs bindings runtime
        (.instantiate n.keyword bound.set bound.arguments)).result = .ok f := by
  cases hr : bindings.runtime? n.keyword with
  | none =>
    rw [compileInvocation_of_unbound _ _ hr] at h
    exact absurd h Compiled.reject_ne_ok
  | some runtime =>
    rw [compileInvocation_eq _ _ hr] at h
    obtain ⟨-, -, h⟩ := Compiled.bind_eq_ok.1 h
    obtain ⟨bound, hbound, h⟩ := Compiled.bind_eq_ok.1 h
    obtain ⟨-, -, h⟩ := Compiled.bind_eq_ok.1 h
    obtain ⟨code, hcode, h⟩ := Compiled.bind_eq_ok.1 h
    obtain ⟨-, -, h⟩ := Compiled.bind_eq_ok.1 h
    obtain rfl := Compiled.pure_eq_ok.1 h
    exact ⟨runtime, bound, rfl, Compiled.ofCheck_eq_ok.1 hbound, hcode⟩

end KeywordEngine
