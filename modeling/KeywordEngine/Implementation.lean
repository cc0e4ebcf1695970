import KeywordEngine.Hook
import KeywordEngine.Instance

/-!
# Implementations

The code behind keywords as the engine sees it. An implementation declares which hooks it carries;
the engine calls those and no others. A declared hook without a body returns null or reports
nothing.

* `TypeManifest` describes an implementation by its nested types and the hooks it supplies; its
  declared hooks are the supplied ones.
* Type names are resolved without regard to case, and of two types with one name the later counts.
-/

namespace KeywordEngine

/-- The bodies of the hooks that an implementation supplies. -/
structure Behavior where
  preParse : Option (Keyword → Except HookError (List Diagnostic)) := none
  postParse : Option (Invocation → Except HookError (List Diagnostic)) := none
  semanticCheck : Option (Invocation → Except HookError (List Diagnostic)) := none
  /-- Gets the instance and the frames around it, the outermost first. -/
  enterScope : Option (Instance → List Frame → Except HookError Value) := none
  /-- Gets the frame, the frames around it and the results of its children in order. -/
  leaveScope : Option (Frame → List Frame → List (Option Value) → Except HookError Value) := none

/-- The hooks that have a body. -/
def Behavior.supplied (b : Behavior) : HookSet where
  contains
    | .preParse => b.preParse.isSome
    | .postParse => b.postParse.isSome
    | .semanticCheck => b.semanticCheck.isSome
    | .enterScope => b.enterScope.isSome
    | .leaveScope => b.leaveScope.isSome

/-- The code behind a keyword. -/
structure Implementation where
  typeName : String
  /-- The code behind a keyword nested in this one. -/
  nested? : String → Option Implementation
  /-- The hooks that the engine calls. -/
  hooks : HookSet
  behavior : Behavior

namespace Implementation

/-- Runs the `preParse` hook. -/
def preParse (t : Implementation) (k : Keyword) : Except HookError (List Diagnostic) :=
  match t.behavior.preParse with
  | some body => body k
  | none => .ok []

/-- Runs the `postParse` hook. -/
def postParse (t : Implementation) (node : Invocation) : Except HookError (List Diagnostic) :=
  match t.behavior.postParse with
  | some body => body node
  | none => .ok []

/-- Runs the `semanticCheck` hook. -/
def semanticCheck (t : Implementation) (node : Invocation) :
    Except HookError (List Diagnostic) :=
  match t.behavior.semanticCheck with
  | some body => body node
  | none => .ok []

/-- Runs the `enterScope` hook. -/
def enterScope (t : Implementation) (i : Instance) (ancestors : List Frame) :
    Except HookError Value :=
  match t.behavior.enterScope with
  | some body => body i ancestors
  | none => .ok .null

/-- Runs the `leaveScope` hook. -/
def leaveScope (t : Implementation) (f : Frame) (ancestors : List Frame)
    (children : List (Option Value)) : Except HookError Value :=
  match t.behavior.leaveScope with
  | some body => body f ancestors children
  | none => .ok .null

/-- The last of some implementations with that type name. -/
def find? (types : List Implementation) (name : String) : Option Implementation :=
  types.reverse.find? (Text.sameName ·.typeName name)

end Implementation

/-! ## Manifests -/

/-- A description of an implementation. -/
structure TypeManifest where
  name : String
  nested : List TypeManifest
  behavior : Behavior

mutual
/-- The implementation a manifest describes. -/
def TypeManifest.implementation : TypeManifest → Implementation
  | ⟨name, nested, behavior⟩ =>
    ⟨name, fun n => Implementation.find? (implementations nested) n, behavior.supplied, behavior⟩

/-- The implementations that manifests describe. -/
def implementations : List TypeManifest → List Implementation
  | [] => []
  | m :: rest => m.implementation :: implementations rest
end

/-! ## Modules -/

/-- A module whose code is loaded. -/
structure LoadedModule where
  module : ModuleRef
  /-- The code behind a keyword at module root. -/
  resolve? : String → Option Implementation

/-- A module made of implementations at hand. -/
def LoadedModule.ofTypes (module : ModuleRef) (types : List Implementation) : LoadedModule :=
  ⟨module, Implementation.find? types⟩

/-- The implementation that a list of type names leads to, the first at module root and each other
one nested in the one before it. -/
def LoadedModule.follow? (m : LoadedModule) : List String → Option Implementation
  | [] => none
  | first :: rest => rest.foldl (fun t name => t.bind (·.nested? name)) (m.resolve? first)

end KeywordEngine
