import KeywordEngine.Keyword
import KeywordEngine.Text.Decimal
import KeywordEngine.Value

/-!
# Scripts

The syntax that a host hands to the engine, with each invocation already resolved to its keyword:
expressions, statements, and the elements that follow a keyword's name.

* `Expr.constant?`: the value of an expression that is known without running anything.
-/

namespace KeywordEngine

/-- A range of the source text, with the line and column at which it starts. -/
structure Span where
  start : Nat
  stop : Nat
  line : Nat
  column : Nat
  deriving DecidableEq, Repr, Inhabited

namespace Span

/-- The start of a line, for hosts that track only lines. -/
def ofLine (line : Nat) : Span := ⟨0, 0, line, 1⟩

/-- The span as shown to the user: line and column. -/
def text (s : Span) : String := Text.ofNat s.line ++ ":" ++ Text.ofNat s.column

end Span

mutual
/-- An expression. -/
inductive Expr where
  | literal (v : Value)
  | readVariable (name : String)
  | array (items : List Expr)
  | hashtable (entries : List HashtableEntry)
  | scriptBlock (statements : List Statement) (span : Span)

/-- One `key = value` of a hashtable expression. -/
structure HashtableEntry where
  key : Expr
  value : Expr
  span : Span

/-- A statement. -/
inductive Statement where
  /-- A keyword is invoked. -/
  | invoke (node : Invocation)
  /-- A variable is set. -/
  | assign (target : String) (value : Expr) (span : Span)
  /-- An expression is evaluated and its value dropped. -/
  | evaluate (e : Expr) (span : Span)

/-- What may follow the name of a keyword. -/
inductive Element where
  /-- A parameter name with its argument; a bare name is a switch. -/
  | named (name : String) (argument : Option Expr) (span : Span)
  /-- An argument alone. -/
  | positional (argument : Expr) (span : Span)

/-- A keyword with the elements that follow its name and its body. -/
structure Invocation where
  keyword : Keyword
  elements : List Element
  body : Option Expr
  span : Span
end

/-- The span of a statement; that of an invocation is its own. -/
def Statement.span : Statement → Span
  | .invoke node => node.span
  | .assign _ _ span => span
  | .evaluate _ span => span

/-- The span of an element. -/
def Element.span : Element → Span
  | .named _ _ span => span
  | .positional _ span => span

mutual
/-- The value of an expression without variables and script blocks; none for any other. -/
def Expr.constant? : Expr → Option Value
  | .literal v => some v
  | .readVariable _ => none
  | .array items => (constantItems? items).map .array
  | .hashtable entries => (constantEntries? entries).map .hashtable
  | .scriptBlock _ _ => none

/-- The values of the items of an array, if all are constant. -/
def constantItems? : List Expr → Option (List Value)
  | [] => some []
  | e :: rest => do
    let v ← e.constant?
    let vs ← constantItems? rest
    return v :: vs

/-- The values of the entries of a hashtable, if all are constant. -/
def constantEntries? : List HashtableEntry → Option (List (Value × Value))
  | [] => some []
  | ⟨key, value, _⟩ :: rest => do
    let k ← key.constant?
    let v ← value.constant?
    let vs ← constantEntries? rest
    return (k, v) :: vs
end

end KeywordEngine
