import KeywordEngine.Binding

/-!
# The scope stack

Open invocations form a stack. Opening a scope calls the enter hook with the frames around it and
pushes a frame; closing one pops the frame, calls the leave hook with the results of the scopes that
were opened directly on top of it, and hands its own result to the scope below.

Each open scope collects one result per scope opened directly on top of it and closed without error,
in that order; none for one without a leave hook.
-/

namespace KeywordEngine

/-- A call of a scope hook with what the hook was shown. Ancestors stand the outermost first. -/
inductive ScopeCall where
  | enter (running : Instance) (ancestors : List Frame)
  | leave (frame : Frame) (ancestors : List Frame) (children : List (Option Value))

/-- An outcome together with the state it leaves, also in failure, and the scope hooks called. -/
structure Outcome (σ ε α : Type) where
  state : σ
  calls : List ScopeCall
  result : Except ε α

/-- Why a scope is not opened or closed. -/
inductive ScopeError where
  /-- A hook raised. -/
  | hook (error : HookError)
  /-- The keyword has no code attached. -/
  | unbound (keyword : String)
  /-- No scope is open. -/
  | underflow
  deriving DecidableEq, Repr

/-- The error as shown to the user. -/
def ScopeError.message : ScopeError → String
  | hook error => error.message
  | unbound keyword => "keyword `" ++ keyword ++ "` is not bound"
  | underflow => "leave_scope called with no active scope"

/-- The open scopes. -/
structure ScopeStack where
  /-- The frames, the innermost first. -/
  frames : List Frame
  /-- For each frame the results of its children in order. -/
  results : List (List (Option Value))
  /-- The number of scopes opened so far. -/
  enters : Nat
  /-- The number of scopes closed so far. -/
  leaves : Nat

namespace ScopeStack

/-- No scope was ever opened. -/
def empty : ScopeStack := ⟨[], [], 0, 0⟩

instance : Inhabited ScopeStack := ⟨empty⟩

/-- The number of open scopes. -/
def depth (s : ScopeStack) : Nat := s.frames.length

/-- Whether no scope is open. -/
def isEmpty (s : ScopeStack) : Bool := s.frames.isEmpty

/-- The frames as hooks are shown them, the outermost first. -/
def ancestors (s : ScopeStack) : List Frame := s.frames.reverse

/-- The stack with a new frame on top. -/
def push (s : ScopeStack) (f : Frame) : ScopeStack :=
  ⟨f :: s.frames, [] :: s.results, s.enters + 1, s.leaves⟩

/-- Opens a scope for an instance. If the hook raises, nothing is pushed. -/
def enter (bindings : Bindings) (s : ScopeStack) (i : Instance) :
    Outcome ScopeStack ScopeError Unit :=
  match bindings.runtime? i.keyword with
  | none => ⟨s, [], .error (.unbound i.name)⟩
  | some runtime =>
    if runtime.hasEnterHook then
      let call := ScopeCall.enter i s.ancestors
      match runtime.implementation.enterScope i s.ancestors with
      | .ok entry => ⟨s.push ⟨i, some entry⟩, [call], .ok ()⟩
      | .error e => ⟨s, [call], .error (.hook e)⟩
    else ⟨s.push ⟨i, none⟩, [], .ok ()⟩

/-- The stack after a scope on top of it closed with `result`. -/
def report (s : ScopeStack) (result : Option Value) : ScopeStack :=
  match s.results with
  | [] => s
  | r :: rest => { s with results := (r ++ [result]) :: rest }

/-- Closes the innermost scope and gives its result. If the hook raises, the frame is gone and the
scope below gets no result. -/
def leave (bindings : Bindings) (s : ScopeStack) :
    Outcome ScopeStack ScopeError (Option Value) :=
  match s.frames, s.results with
  | f :: frames, children :: results =>
    let below : ScopeStack := ⟨frames, results, s.enters, s.leaves + 1⟩
    match (bindings.runtime? f.running.keyword).filter (·.hasLeaveHook) with
    | none => ⟨below.report none, [], .ok none⟩
    | some runtime =>
      let call := ScopeCall.leave f below.ancestors children
      match runtime.implementation.leaveScope f below.ancestors children with
      | .ok v => ⟨below.report (some v), [call], .ok (some v)⟩
      | .error e => ⟨below, [call], .error (.hook e)⟩
  | _, _ => ⟨s, [], .error .underflow⟩

/-- Drops the scopes above the lowest `depth` ones; no hook runs. -/
def unwindTo (s : ScopeStack) (depth : Nat) : ScopeStack :=
  { s with
    frames := s.frames.drop (s.frames.length - depth)
    results := s.results.drop (s.results.length - depth) }

end ScopeStack

end KeywordEngine
