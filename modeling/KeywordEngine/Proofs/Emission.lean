import KeywordEngine.Proofs.Compilation
import KeywordEngine.Proofs.Tree

/-!
# Emitted code

The shape of the code that compilation emits, statement by statement. An invocation opens with the
instructions that make its instance (`Opening`); around the code of its block stand these and the
two scope instructions, if its keyword has a scope hook.

* `emits_of_compileScript`: an accepted script compiles to code of that shape. Results on accepted
  scripts are proved by induction on `Emits`.
-/

namespace KeywordEngine

/-! ## The shape of code -/

/-- The instructions that make the instance of an accepted invocation. -/
inductive Opening (n : Invocation) : List Instruction → Prop
  | plain {bound : BoundArguments} (mode : n.keyword.spec.body ≠ .hashtable)
      (bodiless : n.entries = [])
      (binds : bindArguments n.keyword.spec n.elements n.span = .ok bound) :
      Opening n [.instantiate n.keyword bound.set bound.arguments]
  | hashtable {bound : BoundArguments} {plans : List Plan}
      (mode : n.keyword.spec.body = .hashtable)
      (binds : bindArguments n.keyword.spec n.elements n.span = .ok bound)
      (planned : planProperties n.keyword.spec n.entries n.span = .ok plans) :
      Opening n [.instantiate n.keyword bound.set bound.arguments, .assignProperties plans]

/-- The code of statements. -/
inductive Emits (bindings : Bindings) : List Statement → Fragment → Prop
  | nil : Emits bindings [] []
  | assign {target : String} {value : Expr} {span : Span} {rest : List Statement}
      {code : Fragment} (following : Emits bindings rest code) :
      Emits bindings (.assign target value span :: rest) (.assign target value :: code)
  | evaluate {e : Expr} {span : Span} {rest : List Statement} {code : Fragment}
      (following : Emits bindings rest code) :
      Emits bindings (.evaluate e span :: rest) (.evaluate e :: code)
  | invoke {n : Invocation} {runtime : RuntimeInfo} {start : List Instruction} {inner : Fragment}
      {rest : List Statement} {code : Fragment}
      (bound : bindings.runtime? n.keyword = some runtime) (opens : Opening n start)
      (block : Emits bindings n.block inner) (following : Emits bindings rest code) :
      Emits bindings (.invoke n :: rest) (withScope runtime start inner ++ code)

/-! ## Scopes -/

/-- Whether the invocations of a keyword open scopes. -/
def Bindings.opensScope (b : Bindings) (k : Keyword) : Bool := (b.runtime? k).any (·.usesScope)

/-- The invocations of a tree that open a scope, in the order in which the scopes open. -/
def scopedInvocations (bindings : Bindings) (l : List Statement) : List Invocation :=
  (reachedInvocations l).filter fun n => bindings.opensScope n.keyword

section ScopedInvocations

variable (bindings : Bindings)

@[simp] theorem scopedInvocations_nil : scopedInvocations bindings [] = [] := by
  simp [scopedInvocations]

@[simp] theorem scopedInvocations_assign (target : String) (value : Expr) (span : Span)
    (rest : List Statement) :
    scopedInvocations bindings (.assign target value span :: rest) =
      scopedInvocations bindings rest := by
  simp [scopedInvocations]

@[simp] theorem scopedInvocations_evaluate (e : Expr) (span : Span) (rest : List Statement) :
    scopedInvocations bindings (.evaluate e span :: rest) = scopedInvocations bindings rest := by
  simp [scopedInvocations]

theorem scopedInvocations_invoke {n : Invocation} {runtime : RuntimeInfo}
    (h : bindings.runtime? n.keyword = some runtime) (rest : List Statement) :
    scopedInvocations bindings (.invoke n :: rest) =
      (if runtime.usesScope then [n] else []) ++ scopedInvocations bindings n.block ++
        scopedInvocations bindings rest := by
  have hn : bindings.opensScope n.keyword = runtime.usesScope := by simp [Bindings.opensScope, h]
  unfold scopedInvocations
  rw [reachedInvocations_invoke, List.filter_cons, List.filter_append, hn]
  split <;> simp

end ScopedInvocations

/-! ## Accepted scripts -/

variable {bindings : Bindings}

/-- What the body of an accepted invocation compiles to. -/
theorem compileBody_eq_ok {n : Invocation} {runtime : RuntimeInfo} {bound : BoundArguments}
    {f : Fragment} (hbound : bindArguments n.keyword.spec n.elements n.span = .ok bound)
    (h : (n.compileBody bindArguments bindings runtime
      (.instantiate n.keyword bound.set bound.arguments)).result = .ok f) :
    ∃ start inner, Opening n start ∧
      (compileStatements bindArguments bindings n.block).result = .ok inner ∧
      f = withScope runtime start inner := by
  have empty : (compileStatements bindArguments bindings []).result = .ok [] := by
    simp [compileStatements, Compiled.pure]
  cases hfits : n.bodyFits with
  | false =>
    rw [compileBody_of_not_bodyFits _ _ hfits] at h
    exact absurd h Compiled.reject_ne_ok
  | true =>
    obtain ⟨hmode, hbody⟩ | ⟨hmode, hbody⟩ | ⟨hmode, span, hbody⟩ := Invocation.bodyFits_iff.1 hfits
    · rw [compileBody_of_command _ _ hmode hbody, Compiled.pure_eq_ok] at h
      have hblock : n.block = [] := by simp [Invocation.block, hbody]
      have hentries : n.entries = [] := by simp [Invocation.entries, hbody]
      rw [hblock]
      exact ⟨_, [], .plain (by simp [hmode]) hentries hbound, empty, h.symm⟩
    · rw [compileBody_of_hashtable _ _ hmode hbody] at h
      obtain ⟨plans, hplans, h⟩ := Compiled.bind_eq_ok.1 h
      rw [Compiled.ofCheck_eq_ok] at hplans
      rw [Compiled.pure_eq_ok] at h
      have hblock : n.block = [] := by simp [Invocation.block, hbody]
      rw [hblock]
      exact ⟨_, [], .hashtable hmode hbound hplans, empty, h.symm⟩
    · rw [compileBody_of_scriptBlock _ _ hmode hbody] at h
      obtain ⟨-, -, h⟩ := Compiled.bind_eq_ok.1 h
      obtain ⟨inner, hinner, h⟩ := Compiled.bind_eq_ok.1 h
      rw [Compiled.pure_eq_ok] at h
      have hentries : n.entries = [] := by simp [Invocation.entries, hbody]
      exact ⟨_, inner, .plain (by simp [hmode]) hentries hbound, hinner, h.symm⟩

/-- What an accepted invocation compiles to. -/
theorem compileInvocation_eq_ok {n : Invocation} {f : Fragment}
    (h : (compileInvocation bindArguments bindings n).result = .ok f) :
    ∃ runtime start inner, bindings.runtime? n.keyword = some runtime ∧ Opening n start ∧
      (compileStatements bindArguments bindings n.block).result = .ok inner ∧
      f = withScope runtime start inner := by
  obtain ⟨runtime, bound, hr, hbound, hcode⟩ := compileBody_of_compileInvocation h
  obtain ⟨start, inner, hstart⟩ := compileBody_eq_ok hbound hcode
  exact ⟨runtime, start, inner, hr, hstart⟩

theorem emits_of_compileStatements {l : List Statement} {f : Fragment}
    (h : (compileStatements bindArguments bindings l).result = .ok f) : Emits bindings l f := by
  induction l using statements_induction generalizing f with
  | nil =>
    obtain rfl : [] = f := by simpa [compileStatements, Compiled.pure] using h
    exact .nil
  | assign target value span rest ih =>
    simp only [compileStatements, compileStatement] at h
    obtain ⟨first, others, hfirst, hothers, rfl⟩ := Compiled.append_eq_ok.1 h
    obtain rfl := Compiled.pure_eq_ok.1 hfirst
    exact .assign (ih hothers)
  | evaluate e span rest ih =>
    simp only [compileStatements, compileStatement] at h
    obtain ⟨first, others, hfirst, hothers, rfl⟩ := Compiled.append_eq_ok.1 h
    obtain rfl := Compiled.pure_eq_ok.1 hfirst
    exact .evaluate (ih hothers)
  | invoke n rest ihblock ih =>
    simp only [compileStatements, compileStatement] at h
    obtain ⟨first, others, hfirst, hothers, rfl⟩ := Compiled.append_eq_ok.1 h
    obtain ⟨runtime, start, inner, hr, hstart, hinner, rfl⟩ := compileInvocation_eq_ok hfirst
    exact .invoke hr hstart (ihblock hinner) (ih hothers)

/-- Outside every block a statement compiles as it does inside, if it compiles at all. -/
theorem compileStatement_of_compileTopStatement {bindArgs : ArgumentBinder} {s : Statement}
    {f : Fragment} (h : (compileTopStatement bindArgs bindings s).result = .ok f) :
    (compileStatement bindArgs bindings s).result = .ok f := by
  unfold compileTopStatement at h
  split at h
  · split at h
    · exact absurd h Compiled.reject_ne_ok
    · simpa [compileStatement] using h
  · exact h

theorem compileStatements_of_compileScript {bindArgs : ArgumentBinder} {script : List Statement}
    {f : Fragment} (h : (compileScript bindArgs bindings script).result = .ok f) :
    (compileStatements bindArgs bindings script).result = .ok f := by
  induction script generalizing f with
  | nil => simpa [compileScript, compileStatements] using h
  | cons s rest ih =>
    unfold compileScript at h
    obtain ⟨first, others, hfirst, hothers, hcode⟩ := Compiled.append_eq_ok.1 h
    unfold compileStatements
    exact Compiled.append_eq_ok.2 ⟨first, others, compileStatement_of_compileTopStatement hfirst,
      ih hothers, hcode⟩

/-- An accepted script compiles to code of the right shape. -/
theorem emits_of_compileScript {script : List Statement} {f : Fragment}
    (h : (compileScript bindArguments bindings script).result = .ok f) : Emits bindings script f :=
  emits_of_compileStatements (compileStatements_of_compileScript h)

end KeywordEngine
