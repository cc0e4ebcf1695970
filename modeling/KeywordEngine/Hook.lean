import KeywordEngine.Script

/-!
# Hooks

The five points at which the code behind a keyword may take part: three while its invocations are
compiled (`preParse`, `postParse`, `semanticCheck`) and two while they run (`enterScope`,
`leaveScope`). A hook raises a `HookError` or, while compiling, reports diagnostics.
-/

namespace KeywordEngine

/-- A point at which the code behind a keyword may take part. -/
inductive Hook where
  | preParse
  | postParse
  | semanticCheck
  | enterScope
  | leaveScope
  deriving DecidableEq, Repr

namespace Hook

/-- Every hook, in the order in which sets list them. -/
def all : List Hook := [preParse, postParse, semanticCheck, enterScope, leaveScope]

/-- The name of a hook. -/
def text : Hook → String
  | preParse => "pre_parse"
  | postParse => "post_parse"
  | semanticCheck => "semantic_check"
  | enterScope => "enter_scope"
  | leaveScope => "leave_scope"

/-- Reads the name of a hook. -/
def ofText? (s : String) : Option Hook := all.find? (·.text == s)

end Hook

/-- A set of hooks. -/
structure HookSet where
  contains : Hook → Bool

namespace HookSet

/-- The set without hooks. -/
def empty : HookSet := ⟨fun _ => false⟩

instance : Inhabited HookSet := ⟨empty⟩

/-- The set of the hooks in a list. -/
def ofList (hooks : List Hook) : HookSet := ⟨fun h => decide (h ∈ hooks)⟩

/-- The hooks of the set in their fixed order. -/
def toList (s : HookSet) : List Hook := Hook.all.filter s.contains

/-- Whether the set has no hooks. -/
def isEmpty (s : HookSet) : Bool := s.toList.isEmpty

/-- The names of the hooks, or the word `none`. -/
def text (s : HookSet) : String :=
  if s.isEmpty then "none" else "|".intercalate (s.toList.map (·.text))

@[simp] theorem mem_toList {s : HookSet} {h : Hook} : h ∈ s.toList ↔ s.contains h = true := by
  cases h <;> simp [toList, Hook.all]

end HookSet

/-- A failure raised by a hook. It reaches the caller as it was raised. -/
structure HookError where
  message : String
  deriving DecidableEq, Repr

/-- A complaint that a parse hook reports about an invocation. -/
structure Diagnostic where
  message : String
  span : Option Span
  deriving DecidableEq, Repr

/-- The complaint, after its place if it has one. -/
def Diagnostic.text (d : Diagnostic) : String :=
  match d.span with
  | some span => span.text ++ ": " ++ d.message
  | none => d.message

end KeywordEngine
