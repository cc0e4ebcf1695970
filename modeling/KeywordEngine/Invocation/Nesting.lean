import KeywordEngine.Invocation.Error

/-!
# Keywords in a body

Which keywords may stand directly in the block of a keyword, and how often. A keyword that is nested
in another belongs in the block of exactly that one; a keyword that is not nested may stand
anywhere. Statements deeper down never count.
-/

namespace KeywordEngine

/-- Whether `k` is one of the keywords nested in `parent`. -/
def Keyword.isChildOf (k parent : Keyword) : Bool := parent.children.any (·.id == k.id)

/-- Checks the statements of a block of `parent`; `used` are the names of its children invoked
before them. Gives the names of all children invoked. -/
def checkStatements (parent : Keyword) (used : List String) :
    List Statement → Except InvocationError (List String)
  | [] => .ok used
  | .invoke node :: rest =>
    let k := node.keyword
    if k.isChildOf parent then
      if k.name ∈ used ∧ ¬ k.spec.use.allowsMany then
        .error ⟨k.name, node.span, .keywordUsedMoreThanOnce k.name⟩
      else checkStatements parent (k.name :: used) rest
    else if k.spec.nested then .error ⟨k.name, node.span, .keywordNotInScope k.name⟩
    else checkStatements parent used rest
  | .assign .. :: rest => checkStatements parent used rest
  | .evaluate .. :: rest => checkStatements parent used rest

/-- Checks a block of `parent`: its statements, and that no required child is missing. -/
def checkNesting (parent : Keyword) (statements : List Statement) (blockSpan : Span) :
    Except InvocationError Unit := do
  let used ← checkStatements parent [] statements
  match parent.spec.children.find? fun c => c.use.isRequired && !used.contains c.name with
  | some c => throw ⟨parent.name, blockSpan, .missingRequiredKeyword c.name⟩
  | none => return ()

end KeywordEngine
