import KeywordEngine.Binding
import KeywordEngine.Invocation.Arguments
import KeywordEngine.Invocation.Nesting
import KeywordEngine.Invocation.Properties

/-!
# Compilation

A script compiles to a fragment or to the first fault in it. An invocation whose keyword has a scope
hook becomes an instantiation, the assignment of its properties if it has a hashtable body, and its
block between the opening and the closing of a scope; without a scope hook it becomes its block
alone. Its arguments and its body are checked in either case.

Parse hooks run while their invocation is compiled: `preParse` before the arguments are bound,
`postParse` after that, `semanticCheck` after the body is compiled. `Compiled` carries the calls
along with the outcome.
-/

namespace KeywordEngine

/-- A call of a parse hook with what the hook was shown. -/
inductive ParseCall where
  | preParse (keyword : Keyword)
  | postParse (node : Invocation)
  | semanticCheck (node : Invocation)

/-! ## Outcomes -/

/-- An outcome of compilation with the parse hooks called on the way to it. -/
structure Compiled (α : Type) where
  calls : List ParseCall
  result : Except CompileError α

namespace Compiled

variable {α β : Type}

/-- A success without calls. -/
protected def pure (a : α) : Compiled α := ⟨[], .ok a⟩

/-- The first outcome and, if it is a success, what follows it. -/
protected def bind (x : Compiled α) (f : α → Compiled β) : Compiled β :=
  match x.result with
  | .ok a => ⟨x.calls ++ (f a).calls, (f a).result⟩
  | .error e => ⟨x.calls, .error e⟩

instance : Monad Compiled where
  pure := Compiled.pure
  bind := Compiled.bind

/-- A rejection. -/
def reject (keyword : String) (span : Span) (reason : Rejection) : Compiled α :=
  ⟨[], .error (.invocation ⟨keyword, span, reason⟩)⟩

/-- A check of an invocation that calls no hooks. -/
def ofCheck (r : Except InvocationError α) : Compiled α := ⟨[], r.mapError .invocation⟩

/-- A hook call and its outcome. What the hook raises is passed on as it is; diagnostics that it
reports reject the invocation. -/
def ofHook (call : ParseCall) (keyword : String) (span : Span)
    (outcome : Except HookError (List Diagnostic)) : Compiled Unit :=
  ⟨[call],
    match outcome with
    | .error e => .error (.hook e)
    | .ok [] => .ok ()
    | .ok diagnostics => .error (.invocation ⟨keyword, span, .parseErrors diagnostics⟩)⟩

end Compiled

/-! ## Hooks of an invocation -/

/-- Calls `preParse` if it is declared. -/
def RuntimeInfo.runPreParse (r : RuntimeInfo) (node : Invocation) : Compiled Unit :=
  if r.hooks.contains .preParse then
    .ofHook (.preParse node.keyword) node.keyword.name node.span
      (r.implementation.preParse node.keyword)
  else .pure ()

/-- Calls `postParse` if it is declared. -/
def RuntimeInfo.runPostParse (r : RuntimeInfo) (node : Invocation) : Compiled Unit :=
  if r.hooks.contains .postParse then
    .ofHook (.postParse node) node.keyword.name node.span (r.implementation.postParse node)
  else .pure ()

/-- Calls `semanticCheck` if it is declared. -/
def RuntimeInfo.runSemanticCheck (r : RuntimeInfo) (node : Invocation) : Compiled Unit :=
  if r.hooks.contains .semanticCheck then
    .ofHook (.semanticCheck node) node.keyword.name node.span (r.implementation.semanticCheck node)
  else .pure ()

/-! ## Fragments of invocations -/

/-- The instructions of an invocation: `start` and the body inside a scope of its own if the keyword
has a scope hook, and otherwise the body alone. -/
def withScope (r : RuntimeInfo) (start : List Instruction) (body : Fragment) : Fragment :=
  if r.usesScope then start ++ [.enterScope] ++ body ++ [.leaveScope] else body

section Scripts

variable (bindArgs : ArgumentBinder) (bindings : Bindings)

mutual
/-- The fragment of an invocation. -/
def compileInvocation : Invocation → Compiled Fragment
  | ⟨keyword, elements, body, span⟩ =>
    let node : Invocation := ⟨keyword, elements, body, span⟩
    match bindings.runtime? keyword with
    | none => .reject keyword.name span .unboundKeyword
    | some runtime => do
      runtime.runPreParse node
      let bound ← Compiled.ofCheck (bindArgs keyword.spec elements span)
      runtime.runPostParse node
      let instantiate := Instruction.instantiate keyword bound.set bound.arguments
      let fragment ←
        match keyword.spec.body, body with
        | .command, none => pure (withScope runtime [instantiate] [])
        | .hashtable, some (.hashtable entries) => do
          let plans ← Compiled.ofCheck (planProperties keyword.spec entries span)
          pure (withScope runtime [instantiate, .assignProperties plans] [])
        | .scriptBlock, some (.scriptBlock statements blockSpan) => do
          Compiled.ofCheck (checkNesting keyword statements blockSpan)
          let inner ← compileStatements statements
          pure (withScope runtime [instantiate] inner)
        | mode, _ => Compiled.reject keyword.name span (.malformedBody mode)
      runtime.runSemanticCheck node
      return fragment
termination_by structural n => n

/-- The fragment of one statement. -/
def compileStatement : Statement → Compiled Fragment
  | .invoke node => compileInvocation node
  | .assign target value _ => .pure [.assign target value]
  | .evaluate e _ => .pure [.evaluate e]
termination_by structural s => s

/-- The fragments of statements one after the other. -/
def compileStatements : List Statement → Compiled Fragment
  | [] => .pure []
  | s :: rest => do
    let first ← compileStatement s
    let others ← compileStatements rest
    return first ++ others
termination_by structural l => l
end

/-- The fragment of a statement outside every block, where no nested keyword may stand. -/
def compileTopStatement (s : Statement) : Compiled Fragment :=
  match s with
  | .invoke node =>
    if node.keyword.spec.nested then
      .reject node.keyword.name node.span (.keywordNotInScope node.keyword.name)
    else compileInvocation bindArgs bindings node
  | s => compileStatement bindArgs bindings s

/-- The fragment of a script. -/
def compileScript : List Statement → Compiled Fragment
  | [] => .pure []
  | s :: rest => do
    let first ← compileTopStatement bindArgs bindings s
    let others ← compileScript rest
    return first ++ others

end Scripts

end KeywordEngine
