import KeywordEngine.Constraint.Coercion
import KeywordEngine.Hook

/-!
# Rejected invocations

Why an invocation does not compile, where, and in which words the user is told.
-/

namespace KeywordEngine

/-- Why an invocation is rejected. -/
inductive Rejection where
  | unknownParameter (name : String)
  | duplicateParameter (name : String)
  | parameterNotInSet (parameter set : String)
  | missingArgument (parameter : String)
  | tooManyPositionalArguments (count : Nat)
  | missingMandatoryParameter (name : String)
  | parameterTypeMismatch (parameter : String) (error : CoercionError)
  | nonStringKey (key : String)
  | unknownProperty (name : String)
  | duplicateProperty (name : String)
  | propertyTypeMismatch (property : String) (error : CoercionError)
  | missingMandatoryProperty (name : String)
  | malformedBody (expected : BodyMode)
  | keywordNotInScope (name : String)
  | missingRequiredKeyword (name : String)
  | keywordUsedMoreThanOnce (name : String)
  | unboundKeyword
  /-- Diagnostics that a parse hook reported. -/
  | parseErrors (diagnostics : List Diagnostic)
  deriving DecidableEq, Repr

/-- The reason as shown to the user. -/
def Rejection.message : Rejection → String
  | unknownParameter name => "unknown parameter `" ++ name ++ "`"
  | duplicateParameter name => "parameter `" ++ name ++ "` is bound more than once"
  | parameterNotInSet parameter set =>
    "parameter `" ++ parameter ++ "` cannot be used with parameter set `" ++ set ++ "`"
  | missingArgument parameter => "parameter `" ++ parameter ++ "` requires an argument"
  | tooManyPositionalArguments count =>
    Text.ofNat count ++ " positional argument(s) could not be bound"
  | missingMandatoryParameter name => "mandatory parameter `" ++ name ++ "` is missing"
  | parameterTypeMismatch parameter error => "parameter `" ++ parameter ++ "`: " ++ error.message
  | nonStringKey key => "hashtable key " ++ key ++ " is not a string"
  | unknownProperty name => "unknown property `" ++ name ++ "`"
  | duplicateProperty name => "property `" ++ name ++ "` is assigned more than once"
  | propertyTypeMismatch property error => "property `" ++ property ++ "`: " ++ error.message
  | missingMandatoryProperty name => "mandatory property `" ++ name ++ "` is missing"
  | malformedBody expected => "body does not match body mode " ++ expected.text
  | keywordNotInScope name => "keyword `" ++ name ++ "` is not valid in this scope"
  | missingRequiredKeyword name => "required keyword `" ++ name ++ "` is missing"
  | keywordUsedMoreThanOnce name => "keyword `" ++ name ++ "` may appear at most once"
  | unboundKeyword => "keyword is not bound to module code"
  | parseErrors diagnostics => "; ".intercalate (diagnostics.map (·.text))

/-- An invocation is rejected. -/
structure InvocationError where
  /-- The name of the keyword. -/
  keyword : String
  /-- The node to blame. -/
  span : Span
  reason : Rejection
  deriving DecidableEq, Repr

/-- The error as shown to the user. -/
def InvocationError.message (e : InvocationError) : String :=
  e.span.text ++ ": keyword `" ++ e.keyword ++ "`: " ++ e.reason.message

/-- A script does not compile. -/
inductive CompileError where
  | invocation (error : InvocationError)
  /-- A parse hook raised. -/
  | hook (error : HookError)
  deriving DecidableEq, Repr

/-- The error as shown to the user. -/
def CompileError.message : CompileError → String
  | invocation error => error.message
  | hook error => error.message

end KeywordEngine
