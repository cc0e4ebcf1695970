import KeywordEngine.Proofs.Simulation

/-!
# Scope instructions are bracketed

The scope instructions of accepted code nest, each scope opens for the instance that the
instructions right before it make, and so the machine never meets a stack or a pending instance that
it does not expect.

* `wellBracketed_of_emits`, `opensInOrder_of_emits`, `Fragment.counts_of_emits`: the static side,
  each by induction on the emission.
* `ExecutionError.isInternal`: the errors that only a broken fragment or a keyword without code can
  cause. `explained_of_emits` rules them out for the meaning of statements, and the simulation
  carries that over to the code.
* `Fragment.scoped_of_compileScript`: both sides for accepted scripts.
-/

namespace KeywordEngine

variable {bindings : Bindings}

/-! ## Brackets -/

/-- Every scope that is opened is closed, and scopes nest. -/
inductive WellBracketed : Fragment → Prop
  | nil : WellBracketed []
  | plain {i : Instruction} {rest : Fragment} (quiet : i.isScopeOperation = false)
      (following : WellBracketed rest) : WellBracketed (i :: rest)
  | scope {inner rest : Fragment} (block : WellBracketed inner) (following : WellBracketed rest) :
      WellBracketed (.enterScope :: (inner ++ .leaveScope :: rest))

namespace WellBracketed

theorem append {f g : Fragment} (hf : WellBracketed f) (hg : WellBracketed g) :
    WellBracketed (f ++ g) := by
  induction hf with
  | nil => exact hg
  | plain quiet following ih => exact .plain quiet ih
  | scope block following ihblock ih =>
    rw [List.cons_append, List.append_assoc, List.cons_append]
    exact .scope block ih

theorem opening {n : Invocation} {start : Fragment} (h : Opening n start) : WellBracketed start := by
  cases h with
  | plain mode bodiless binds => exact .plain rfl .nil
  | hashtable mode binds planned => exact .plain rfl (.plain rfl .nil)

/-- The code of an invocation is well bracketed if the code of its block is. -/
theorem withScope {start : List Instruction} {inner : Fragment} (hstart : WellBracketed start)
    (hinner : WellBracketed inner) (r : RuntimeInfo) : WellBracketed (withScope r start inner) := by
  unfold KeywordEngine.withScope
  split
  · have hscope := hstart.append (.scope hinner .nil)
    simpa using hscope
  · exact hinner

end WellBracketed

theorem wellBracketed_of_emits {l : List Statement} {f : Fragment} (h : Emits bindings l f) :
    WellBracketed f := by
  induction h with
  | nil => exact .nil
  | assign following ih => exact .plain rfl ih
  | evaluate following ih => exact .plain rfl ih
  | invoke bound opens block following ihblock ih =>
    exact ((WellBracketed.opening opens).withScope ihblock _).append ih

/-! ## Counts -/

/-- Whether the instruction opens a scope. -/
def Instruction.isEnterScope : Instruction → Bool
  | enterScope => true
  | leaveScope | instantiate .. | assignProperties _ | assign .. | evaluate _ => false

/-- The number of scopes that a fragment opens. -/
def Fragment.enterScopeCount (f : Fragment) : Nat := f.countP (·.isEnterScope)

namespace Fragment

theorem enterScopeCount_append (f g : Fragment) :
    enterScopeCount (f ++ g) = f.enterScopeCount + g.enterScopeCount := List.countP_append

theorem scopeOperationCount_append (f g : Fragment) :
    scopeOperationCount (f ++ g) = f.scopeOperationCount + g.scopeOperationCount :=
  List.countP_append

theorem counts_opening {n : Invocation} {start : Fragment} (h : Opening n start) :
    start.enterScopeCount = 0 ∧ start.scopeOperationCount = 0 := by
  cases h <;> exact ⟨rfl, rfl⟩

/-- Code opens as many scopes as its statements have invocations with a scope hook, and has twice as
many scope instructions. -/
theorem counts_of_emits {l : List Statement} {f : Fragment} (h : Emits bindings l f) :
    f.enterScopeCount = (scopedInvocations bindings l).length ∧
      f.scopeOperationCount = 2 * (scopedInvocations bindings l).length := by
  induction h with
  | nil => exact ⟨by simp [enterScopeCount], by simp [scopeOperationCount]⟩
  | @assign target value span rest code following ih =>
    rw [scopedInvocations_assign]
    exact ih
  | @evaluate e span rest code following ih =>
    rw [scopedInvocations_evaluate]
    exact ih
  | @invoke n runtime start inner rest code bound opens block following ihblock ih =>
    obtain ⟨hstart, hstart'⟩ := counts_opening opens
    obtain ⟨hinner, hinner'⟩ := ihblock
    obtain ⟨hcode, hcode'⟩ := ih
    have henter : enterScopeCount [.enterScope] = 1 := rfl
    have henter' : scopeOperationCount [.enterScope] = 1 := rfl
    have hleave : enterScopeCount [.leaveScope] = 0 := rfl
    have hleave' : scopeOperationCount [.leaveScope] = 1 := rfl
    rw [scopedInvocations_invoke bindings bound, List.length_append, List.length_append,
      enterScopeCount_append, scopeOperationCount_append]
    unfold withScope
    split
    · simp only [enterScopeCount_append, scopeOperationCount_append, List.length_singleton]
      omega
    · simp only [List.length_nil]
      omega

end Fragment

/-! ## Openings -/

/-- An item of two lists in a row is an item of the first or one of the second. -/
theorem append_eq_append_cons {α : Type} {f g before after : List α} {x : α}
    (h : f ++ g = before ++ x :: after) :
    (∃ others, f = before ++ x :: others) ∨
      ∃ others, before = f ++ others ∧ g = others ++ x :: after := by
  obtain ⟨others, rfl, hafter⟩ | ⟨others, hbefore, hafter⟩ := List.append_eq_append_iff.1 h
  · exact .inr ⟨others, rfl, hafter⟩
  · cases others with
    | nil =>
      obtain rfl : f = before := by simpa using hbefore
      exact .inr ⟨[], by simp, hafter.symm⟩
    | cons y others =>
      rw [List.cons_append, List.cons.injEq] at hafter
      obtain ⟨rfl, -⟩ := hafter
      exact .inl ⟨others, hbefore⟩

/-- The scopes open for the invocations of a list, one after the other, each right behind the
instructions that make its instance. -/
def OpensInOrder (ns : List Invocation) (f : Fragment) : Prop :=
  ∀ before after : Fragment, f = before ++ .enterScope :: after →
    ∃ n earlier opening, ns[before.enterScopeCount]? = some n ∧ before = earlier ++ opening ∧
      Opening n opening

namespace OpensInOrder

variable {ns ms : List Invocation} {f g : Fragment}

theorem of_count_eq_zero (h : f.enterScopeCount = 0) : OpensInOrder ns f := by
  rintro before after rfl
  rw [Fragment.enterScopeCount_append] at h
  simp [Fragment.enterScopeCount, Instruction.isEnterScope] at h

theorem append (hf : OpensInOrder ns f) (hcount : f.enterScopeCount = ns.length)
    (hg : OpensInOrder ms g) : OpensInOrder (ns ++ ms) (f ++ g) := by
  intro before after h
  obtain ⟨others, hbefore⟩ | ⟨others, rfl, hafter⟩ := append_eq_append_cons h
  · obtain ⟨n, earlier, opening, hn, hsplit, hopening⟩ := hf before others hbefore
    have hlt := (List.getElem?_eq_some_iff.1 hn).1
    exact ⟨n, earlier, opening, by rwa [List.getElem?_append_left hlt], hsplit, hopening⟩
  · obtain ⟨n, earlier, opening, hn, rfl, hopening⟩ := hg others after hafter
    refine ⟨n, f ++ earlier, opening, ?_, by rw [List.append_assoc], hopening⟩
    rw [Fragment.enterScopeCount_append, hcount, List.getElem?_append_right (by omega)]
    rwa [Nat.add_sub_cancel_left]

theorem cons {i : Instruction} (h : OpensInOrder ns f) (hi : i.isEnterScope = false) :
    OpensInOrder ns (i :: f) := by
  have hcount : Fragment.enterScopeCount [i] = 0 := by simp [Fragment.enterScopeCount, hi]
  have hfirst : OpensInOrder [] [i] := of_count_eq_zero hcount
  exact hfirst.append hcount h

/-- A scope right behind the instructions that make an instance. -/
theorem opening {n : Invocation} (h : Opening n f) : OpensInOrder [n] (f ++ [.enterScope]) := by
  intro before after hsplit
  have hcount : f.enterScopeCount = 0 := (Fragment.counts_opening h).1
  obtain ⟨others, rfl⟩ | ⟨others, rfl, hafter⟩ := append_eq_append_cons hsplit
  · rw [Fragment.enterScopeCount_append] at hcount
    simp [Fragment.enterScopeCount, Instruction.isEnterScope] at hcount
  · obtain rfl : others = [] := by
      cases others with
      | nil => rfl
      | cons i others => simp at hafter
    rw [List.append_nil]
    exact ⟨n, [], f, by rw [hcount]; rfl, rfl, h⟩

end OpensInOrder

theorem opensInOrder_of_emits {l : List Statement} {f : Fragment} (h : Emits bindings l f) :
    OpensInOrder (scopedInvocations bindings l) f := by
  induction h with
  | nil => exact .of_count_eq_zero rfl
  | @assign target value span rest code following ih =>
    rw [scopedInvocations_assign]
    exact ih.cons rfl
  | @evaluate e span rest code following ih =>
    rw [scopedInvocations_evaluate]
    exact ih.cons rfl
  | @invoke n runtime start inner rest code bound opens block following ihblock ih =>
    have hinner := (Fragment.counts_of_emits block).1
    rw [scopedInvocations_invoke bindings bound]
    unfold withScope
    split
    · have hstart := (Fragment.counts_opening opens).1
      have henter : Fragment.enterScopeCount [.enterScope] = 1 := rfl
      have hleave : Fragment.enterScopeCount [.leaveScope] = 0 := rfl
      have hclose : OpensInOrder [] [.leaveScope] := .of_count_eq_zero hleave
      have hblock := (OpensInOrder.opening opens).append
        (by rw [Fragment.enterScopeCount_append, hstart, henter]; rfl) ihblock
      have hscope := hblock.append
        (by
          rw [Fragment.enterScopeCount_append, Fragment.enterScopeCount_append, List.length_append,
            hstart, henter, hinner]
          rfl) hclose
      rw [List.append_nil] at hscope
      refine hscope.append ?_ ih
      rw [Fragment.enterScopeCount_append, Fragment.enterScopeCount_append,
        Fragment.enterScopeCount_append, List.length_append, hstart, henter, hinner, hleave]
      rfl
    · exact ihblock.append hinner ih

/-! ## Internal errors -/

/-- The errors that no script can cause: the machine finds no pending instance, no open scope or no
code for a keyword. -/
def ExecutionError.isInternal : ExecutionError → Bool
  | noPendingInstance | scope .underflow | scope (.unbound _) => true
  | scope (.hook _) | coercion .. | unknownVariable _ | unsupportedExpression _ => false

/-- A computation that fails, if at all, with an error that a script can cause. -/
def Explained {α : Type} (r : Except ExecutionError α) : Prop :=
  ∀ e, r = .error e → e.isInternal = false

namespace Explained

variable {α β : Type}

theorem ok (a : α) : Explained (.ok a) := by
  intro e h
  cases h

theorem error {e : ExecutionError} (h : e.isInternal = false) :
    Explained (.error e : Except ExecutionError α) := by
  intro e' h'
  cases h'
  exact h

theorem bind {x : Except ExecutionError α} {f : α → Except ExecutionError β} (hx : Explained x)
    (hf : ∀ a, Explained (f a)) : Explained (x >>= f) := by
  cases x with
  | error e => exact error (hx e rfl)
  | ok a => exact hf a

end Explained

section Evaluation

variable (vars : Variables)

mutual
theorem explained_evaluate : ∀ e : Expr, Explained (evaluate vars e)
  | .literal v => .ok v
  | .readVariable name => by
    unfold evaluate
    split
    · exact .ok _
    · exact .error rfl
  | .array items => (explained_evaluateItems items).bind fun vs => .ok (Value.array vs)
  | .hashtable entries => (explained_evaluateEntries entries).bind fun es => .ok (Value.hashtable es)
  | .scriptBlock _ _ => .error rfl

theorem explained_evaluateItems : ∀ items : List Expr, Explained (evaluateItems vars items)
  | [] => .ok []
  | e :: rest =>
    (explained_evaluate e).bind fun v => (explained_evaluateItems rest).bind fun vs => .ok (v :: vs)

theorem explained_evaluateEntries :
    ∀ entries : List HashtableEntry, Explained (evaluateEntries vars entries)
  | [] => .ok []
  | ⟨key, value, _⟩ :: rest =>
    (explained_evaluate key).bind fun k => (explained_evaluate value).bind fun v =>
      (explained_evaluateEntries rest).bind fun vs => .ok ((k, v) :: vs)
end

theorem explained_assignedValues (l : List Assignment) : Explained (assignedValues vars l) := by
  induction l with
  | nil => exact .ok []
  | cons a rest ih =>
    have hvalue : Explained (a.value vars) := by
      unfold Assignment.value
      split
      · exact .ok _
      · refine (explained_evaluate vars _).bind fun v => ?_
        cases a.constraint.coerce v with
        | ok w => exact .ok w
        | error e => exact .error rfl
    exact hvalue.bind fun v => ih.bind fun vs => .ok ((a.target, v) :: vs)

theorem explained_instantiate (n : Invocation) : Explained (n.instantiate vars) :=
  (explained_assignedValues vars _).bind fun _ => (explained_assignedValues vars _).bind fun _ =>
    .ok _

end Evaluation

namespace Meaning

theorem explained_andThen {m : Meaning} {next : Variables → Meaning} (hm : Explained m.result)
    (hnext : ∀ vars, Explained (next vars).result) : Explained (m.andThen next).result := by
  unfold andThen
  split
  · exact hm
  · exact hnext m.vars

theorem explained_inScope {runtime : RuntimeInfo} {i : Instance} {ancestors : List Frame}
    {vars : Variables} {block : List Frame → Meaning}
    (hblock : ∀ frames, Explained (block frames).result) :
    Explained (inScope runtime i ancestors vars block).result := by
  unfold inScope
  simp only
  split
  · exact .error rfl
  · rename_i frame hframe
    split
    · rename_i e he
      exact .error (hblock _ e he)
    · split
      · exact .error rfl
      · exact .ok ()

end Meaning

/-- Where every keyword has code, evaluation fails only for reasons that lie in the script. -/
theorem explained_of_emits {l : List Statement} {f : Fragment} (h : Emits bindings l f)
    (ancestors : List Frame) (vars : Variables) :
    Explained (statementsMeaning bindings ancestors vars l).result := by
  induction h generalizing ancestors vars with
  | nil =>
    rw [statementsMeaning_nil]
    exact .ok ()
  | assign following ih =>
    rw [statementsMeaning_cons]
    refine Meaning.explained_andThen ?_ fun vars => ih ancestors vars
    unfold Statement.meaning
    split
    · rename_i e he
      exact .error (explained_evaluate vars _ e he)
    · exact .ok ()
  | evaluate following ih =>
    rw [statementsMeaning_cons]
    refine Meaning.explained_andThen ?_ fun vars => ih ancestors vars
    unfold Statement.meaning
    split
    · rename_i e he
      exact .error (explained_evaluate vars _ e he)
    · exact .ok ()
  | @invoke n runtime start inner rest code bound opens block following ihblock ih =>
    rw [statementsMeaning_cons]
    refine Meaning.explained_andThen ?_ fun vars => ih ancestors vars
    unfold Statement.meaning
    rw [Invocation.meaning_eq bindings bound]
    split
    · split
      · rename_i e he
        exact .error (explained_instantiate vars n e he)
      · exact Meaning.explained_inScope fun frames => ihblock frames vars
    · exact ihblock ancestors vars

/-! ## Accepted scripts -/

/-- The scope instructions of accepted code are bracketed, each scope opens right behind the
instructions that make the instance of its own invocation, and there are two for each invocation
with a scope hook. So no run fails with an internal error, and one that succeeds leaves the frames
that it found and has opened and closed one scope for each of these invocations. -/
theorem Fragment.scoped_of_compileScript {script : List Statement} {f : Fragment}
    (h : (compileScript bindArguments bindings script).result = .ok f) :
    let opened := scopedInvocations bindings script
    WellBracketed f ∧ OpensInOrder opened f ∧ f.scopeOperationCount = 2 * opened.length ∧
      ∀ c : ExecutionContext,
        let o := c.execute bindings f
        (∀ e, o.result = .error e → e.isInternal = false) ∧
        (o.result = .ok () →
          o.state.scope.frames = c.scope.frames ∧
          o.state.scope.enters = c.scope.enters + opened.length ∧
          o.state.scope.leaves = c.scope.leaves + opened.length) := by
  have hemits := emits_of_compileScript h
  refine ⟨wellBracketed_of_emits hemits, opensInOrder_of_emits hemits,
    (counts_of_emits hemits).2, fun c => ?_⟩
  have hsim := simulates_of_emits hemits c
  have hexplained := explained_of_emits hemits c.scope.ancestors c.vars
  cases hm : (statementsMeaning bindings c.scope.ancestors c.vars script).result with
  | error e =>
    rw [ExecutionContext.execute_of_error (hsim.result.trans hm)]
    rw [hm] at hexplained
    exact ⟨hexplained, fun hok => by cases hok⟩
  | ok u =>
    rw [ExecutionContext.execute_of_ok (hsim.result.trans hm)]
    have hscope := hsim.scope hm
    refine ⟨fun e he => ?_, fun _ => ?_⟩
    · rw [hsim.result, hm] at he
      cases he
    · rw [hscope]
      exact ⟨rfl, rfl, rfl⟩

/-- The suite with its setup and both checks opens and closes four scopes. -/
theorem Fragment.scoped_of_compileScript_sample :
    ∃ f, (compileScript bindArguments Sample.code
        (Sample.script (some (.literal (.int 1))))).result = .ok f ∧
      WellBracketed f ∧ f.scopeOperationCount = 8 ∧
      (ExecutionContext.empty.execute Sample.code f).state.scope.frames = [] ∧
      (ExecutionContext.empty.execute Sample.code f).state.scope.enters = 4 ∧
      (ExecutionContext.empty.execute Sample.code f).state.scope.leaves = 4 := by
  have hok : (compileScript bindArguments Sample.code
      (Sample.script (some (.literal (.int 1))))).result.isOk = true := by
    decide +kernel
  obtain ⟨f, hf⟩ := Sample.compiles_of_isOk hok
  obtain ⟨hbracketed, -, hcount, hruns⟩ := scoped_of_compileScript hf
  have hlength : (scopedInvocations Sample.code
      (Sample.script (some (.literal (.int 1))))).length = 4 := by
    decide +kernel
  have hrun : (ExecutionContext.empty.run Sample.code f).result = .ok () := by
    rw [(simulates_of_emits (emits_of_compileScript hf) .empty).result]
    decide +kernel
  have hresult : (ExecutionContext.empty.execute Sample.code f).result = .ok () := by
    rw [ExecutionContext.execute_of_ok hrun, hrun]
  rw [hlength] at hcount
  obtain ⟨-, hsuccess⟩ := hruns .empty
  rw [hlength] at hsuccess
  exact ⟨f, hf, hbracketed, hcount, hsuccess hresult⟩

end KeywordEngine
