import KeywordEngine.Script

/-!
# Statement trees

Statements form a tree: below an invocation stand the statements of its block. Blocks inside other
expressions are no part of it, because nothing ever runs them.

* `reachedInvocations`: the invocations of a tree, each before those in its block.
* `statements_induction`: induction over a tree, with one hypothesis for the block of an invocation
  and one for the statements after it.
-/

namespace KeywordEngine

namespace Invocation

/-- The statements in the block of an invocation; none without a block. -/
def block (n : Invocation) : List Statement :=
  match n.body with
  | some (.scriptBlock statements _) => statements
  | _ => []

/-- The entries of the hashtable body of an invocation; none without such a body. -/
def entries (n : Invocation) : List HashtableEntry :=
  match n.body with
  | some (.hashtable entries) => entries
  | _ => []

theorem sizeOf_block_lt (n : Invocation) : sizeOf n.block < sizeOf n := by
  obtain ⟨keyword, elements, body, span⟩ := n
  unfold block
  split
  · rename_i h
    simp only at h
    subst h
    simp only [Invocation.mk.sizeOf_spec, Option.some.sizeOf_spec, Expr.scriptBlock.sizeOf_spec]
    omega
  · have : 0 < sizeOf elements := by
      cases elements <;> simp only [List.nil.sizeOf_spec, List.cons.sizeOf_spec] <;> omega
    simp only [Invocation.mk.sizeOf_spec, List.nil.sizeOf_spec]
    omega

end Invocation

/-- Induction over a tree of statements. -/
theorem statements_induction {P : List Statement → Prop} (nil : P [])
    (assign : ∀ target value span rest, P rest → P (.assign target value span :: rest))
    (evaluate : ∀ e span rest, P rest → P (.evaluate e span :: rest))
    (invoke : ∀ n rest, P n.block → P rest → P (.invoke n :: rest)) : ∀ l, P l
  | [] => nil
  | .assign target value span :: rest =>
    assign target value span rest (statements_induction nil assign evaluate invoke rest)
  | .evaluate e span :: rest =>
    evaluate e span rest (statements_induction nil assign evaluate invoke rest)
  | .invoke n :: rest =>
    have := n.sizeOf_block_lt
    invoke n rest (statements_induction nil assign evaluate invoke n.block)
      (statements_induction nil assign evaluate invoke rest)
termination_by l => sizeOf l

/-! ## Reached invocations -/

mutual
/-- An invocation and those in its block. -/
def Invocation.reached : Invocation → List Invocation
  | ⟨keyword, elements, body, span⟩ =>
    ⟨keyword, elements, body, span⟩ ::
      match body with
      | some (.scriptBlock statements _) => reachedInvocations statements
      | _ => []
termination_by structural n => n

/-- The invocations of a statement. -/
def Statement.reached : Statement → List Invocation
  | .invoke n => n.reached
  | .assign .. => []
  | .evaluate .. => []
termination_by structural s => s

/-- The invocations of a tree of statements, each before those in its block. -/
def reachedInvocations : List Statement → List Invocation
  | [] => []
  | s :: rest => s.reached ++ reachedInvocations rest
termination_by structural l => l
end

theorem Invocation.reached_eq (n : Invocation) : n.reached = n :: reachedInvocations n.block := by
  obtain ⟨keyword, elements, body, span⟩ := n
  unfold Invocation.reached Invocation.block
  congr 1
  split <;> simp_all [reachedInvocations]

@[simp] theorem reachedInvocations_nil : reachedInvocations [] = [] := by
  simp [reachedInvocations]

@[simp] theorem reachedInvocations_assign (target : String) (value : Expr) (span : Span)
    (rest : List Statement) :
    reachedInvocations (.assign target value span :: rest) = reachedInvocations rest := by
  simp [reachedInvocations, Statement.reached]

@[simp] theorem reachedInvocations_evaluate (e : Expr) (span : Span) (rest : List Statement) :
    reachedInvocations (.evaluate e span :: rest) = reachedInvocations rest := by
  simp [reachedInvocations, Statement.reached]

@[simp] theorem reachedInvocations_invoke (n : Invocation) (rest : List Statement) :
    reachedInvocations (.invoke n :: rest) =
      n :: (reachedInvocations n.block ++ reachedInvocations rest) := by
  simp [reachedInvocations, Statement.reached, Invocation.reached_eq]

end KeywordEngine
