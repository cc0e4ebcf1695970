import KeywordEngine.Proofs.Success
import KeywordEngine.Scope

/-!
# Histories of the scope stack

A host may open and close scopes on its own, in any order and with hooks that do something else each
time. What a leave hook is shown is said here on the history of these requests alone: the request
that opened the scope, the scopes that were opened and closed since, and what the code attached to
their keywords answered.

* `Bindings.EnterAnswer`, `Bindings.LeaveAnswer`: what that code answers, and whether it fails.
* `ScopeStack.Enters`, `ScopeStack.Leaves`: what a request comes to, given that answer.
* `ScopeEvent.effect`: the three things that a request can do to a stack.
* `Settled`: events that leave open nothing that they opened, with the results of the scopes that
  they opened side by side.
* `Standing`: the open scopes by the events that opened them. `standing_serveAll` is an induction on
  the requests, with `Standing.event` for one of them.
* `ScopeStack.lawful_serveAll`: the law of every stack that was empty once.
-/

namespace KeywordEngine

/-! ## Requests -/

/-- A request to open or to close a scope, with the code that keywords have when it is made. -/
inductive ScopeRequest where
  | enter (bindings : Bindings) (i : Instance)
  | leave (bindings : Bindings)

namespace ScopeStack

/-- What a request comes to. Opening a scope has no result of its own. -/
def serve (s : ScopeStack) : ScopeRequest → Outcome ScopeStack ScopeError (Option Value)
  | .enter bindings i =>
    let o := s.enter bindings i
    ⟨o.state, o.calls, o.result.map fun _ => none⟩
  | .leave bindings => s.leave bindings

/-- The stack after requests. -/
def serveAll (s : ScopeStack) (requests : List ScopeRequest) : ScopeStack :=
  requests.foldl (fun s r => (s.serve r).state) s

end ScopeStack

/-- A request with the stack that it met. -/
structure ScopeEvent where
  before : ScopeStack
  request : ScopeRequest

/-- The events of requests that a stack serves one after the other. -/
def ScopeStack.history (s : ScopeStack) : List ScopeRequest → List ScopeEvent
  | [] => []
  | r :: rest => ⟨s, r⟩ :: (s.serve r).state.history rest

/-- What a request changed. -/
inductive ScopeChange where
  /-- Nothing was opened or closed. -/
  | refused
  /-- A scope was opened. -/
  | opened
  /-- The innermost scope was closed, with its result; none if its leave hook raised. -/
  | closed (result : Option (Option Value))

namespace ScopeEvent

/-- What came of the request. -/
def outcome (e : ScopeEvent) : Outcome ScopeStack ScopeError (Option Value) :=
  e.before.serve e.request

/-- The stack after the request. -/
abbrev after (e : ScopeEvent) : ScopeStack := e.outcome.state

/-- The hooks that the request called. -/
abbrev calls (e : ScopeEvent) : List ScopeCall := e.outcome.calls

/-- What the request changed. A failed one to close a scope closed it, unless there was none. -/
def change (e : ScopeEvent) : ScopeChange :=
  match e.request, e.outcome.result with
  | .enter .., .ok _ => .opened
  | .enter .., .error _ => .refused
  | .leave _, .error .underflow => .refused
  | .leave _, result => .closed result.toOption

end ScopeEvent

/-! ## Answers of attached code -/

namespace Bindings

/-- The calls that opening a scope for an instance makes. -/
def enterCalls (b : Bindings) (i : Instance) (ancestors : List Frame) : List ScopeCall :=
  if b.callsEnter i.keyword then [.enter i ancestors] else []

/-- The calls that closing the scope of a frame makes. -/
def leaveCalls (b : Bindings) (frame : Frame) (ancestors : List Frame)
    (children : List (Option Value)) : List ScopeCall :=
  if b.callsLeave frame.running.keyword then [.leave frame ancestors children] else []

/-- What the code of a keyword answers when a scope is to be opened for an instance among frames:
the value for its frame, which is none without an enter hook, or why no scope can be opened. -/
inductive EnterAnswer (b : Bindings) (i : Instance) (ancestors : List Frame) :
    Except ScopeError (Option Value) → Prop
  | unbound (free : b.runtime? i.keyword = none) :
      EnterAnswer b i ancestors (.error (.unbound i.name))
  | plain {runtime : RuntimeInfo} (bound : b.runtime? i.keyword = some runtime)
      (hookless : runtime.hasEnterHook = false) : EnterAnswer b i ancestors (.ok none)
  | value {runtime : RuntimeInfo} {v : Value} (bound : b.runtime? i.keyword = some runtime)
      (hooked : runtime.hasEnterHook = true)
      (returned : runtime.implementation.enterScope i ancestors = .ok v) :
      EnterAnswer b i ancestors (.ok (some v))
  | raised {runtime : RuntimeInfo} {e : HookError} (bound : b.runtime? i.keyword = some runtime)
      (hooked : runtime.hasEnterHook = true)
      (raised : runtime.implementation.enterScope i ancestors = .error e) :
      EnterAnswer b i ancestors (.error (.hook e))

/-- What the code of a keyword answers when the scope of a frame is to be closed: the result of the
scope, which is none without a leave hook, or the error that the hook raised. -/
inductive LeaveAnswer (b : Bindings) (frame : Frame) (ancestors : List Frame)
    (children : List (Option Value)) : Except HookError (Option Value) → Prop
  | plain (hookless : b.callsLeave frame.running.keyword = false) :
      LeaveAnswer b frame ancestors children (.ok none)
  | value {runtime : RuntimeInfo} {v : Value}
      (bound : b.runtime? frame.running.keyword = some runtime)
      (hooked : runtime.hasLeaveHook = true)
      (returned : runtime.implementation.leaveScope frame ancestors children = .ok v) :
      LeaveAnswer b frame ancestors children (.ok (some v))
  | raised {runtime : RuntimeInfo} {e : HookError}
      (bound : b.runtime? frame.running.keyword = some runtime)
      (hooked : runtime.hasLeaveHook = true)
      (raised : runtime.implementation.leaveScope frame ancestors children = .error e) :
      LeaveAnswer b frame ancestors children (.error e)

end Bindings

/-! ## One request -/

namespace ScopeStack

/-- Opening a scope, given what the code of the keyword answers: a frame of the instance with that
value is pushed, or nothing changes. -/
inductive Enters (bindings : Bindings) (s : ScopeStack) (i : Instance) :
    Outcome ScopeStack ScopeError Unit → Prop
  | opened {entry : Option Value} (answer : bindings.EnterAnswer i s.ancestors (.ok entry)) :
      Enters bindings s i ⟨s.push ⟨i, entry⟩, bindings.enterCalls i s.ancestors, .ok ()⟩
  | failed {e : ScopeError} (answer : bindings.EnterAnswer i s.ancestors (.error e)) :
      Enters bindings s i ⟨s, bindings.enterCalls i s.ancestors, .error e⟩

/-- Closing the scope of the innermost frame, given what the code of its keyword answers: the frame
and the results of its children are gone, and the scope below gets the result, unless the hook
raised. -/
inductive Leaves (bindings : Bindings) (s : ScopeStack) (frame : Frame) (ancestors : List Frame)
    (children : List (Option Value)) : Outcome ScopeStack ScopeError (Option Value) → Prop
  | closed {result : Option Value}
      (answer : bindings.LeaveAnswer frame ancestors children (.ok result)) :
      Leaves bindings s frame ancestors children
        ⟨⟨s.frames.tail, s.results.tail.modifyHead (· ++ [result]), s.enters, s.leaves + 1⟩,
          bindings.leaveCalls frame ancestors children, .ok result⟩
  | failed {e : HookError} (answer : bindings.LeaveAnswer frame ancestors children (.error e)) :
      Leaves bindings s frame ancestors children
        ⟨⟨s.frames.tail, s.results.tail, s.enters, s.leaves + 1⟩,
          bindings.leaveCalls frame ancestors children, .error (.hook e)⟩

theorem enters_enter (s : ScopeStack) (bindings : Bindings) (i : Instance) :
    s.Enters bindings i (s.enter bindings i) := by
  unfold enter
  cases hr : bindings.runtime? i.keyword with
  | none =>
    have hcalls : bindings.enterCalls i s.ancestors = [] := by
      simp [Bindings.enterCalls, Bindings.callsEnter, hr]
    exact hcalls ▸ .failed (.unbound hr)
  | some runtime =>
    by_cases hhook : runtime.hasEnterHook = true
    · have hcalls : bindings.enterCalls i s.ancestors = [.enter i s.ancestors] := by
        simp [Bindings.enterCalls, Bindings.callsEnter, hr, hhook]
      simp only [hhook, if_true, ← hcalls]
      cases hentry : runtime.implementation.enterScope i s.ancestors with
      | error e => exact .failed (.raised hr hhook hentry)
      | ok v => exact .opened (.value hr hhook hentry)
    · have hcalls : bindings.enterCalls i s.ancestors = [] := by
        simp [Bindings.enterCalls, Bindings.callsEnter, hr, hhook]
      simp only [hhook, ← hcalls]
      exact .opened (.plain hr (Bool.eq_false_iff.2 hhook))

theorem leave_of_bare {s : ScopeStack} (h : s.frames = [] ∨ s.results = [])
    (bindings : Bindings) : s.leave bindings = ⟨s, [], .error .underflow⟩ := by
  obtain ⟨frames, results, enters, leaves⟩ := s
  obtain rfl | rfl := h
  · rfl
  · cases frames <;> rfl

theorem leaves_leave {s : ScopeStack} {frame : Frame} {frames : List Frame}
    {children : List (Option Value)} {results : List (List (Option Value))}
    (hframes : s.frames = frame :: frames) (hresults : s.results = children :: results)
    (bindings : Bindings) :
    s.Leaves bindings frame frames.reverse children (s.leave bindings) := by
  obtain ⟨_, _, enters, leaves⟩ := s
  obtain rfl : _ = frame :: frames := hframes
  obtain rfl : _ = children :: results := hresults
  let s : ScopeStack := ⟨frame :: frames, children :: results, enters, leaves⟩
  have hreport (v : Option Value) : report ⟨frames, results, enters, leaves + 1⟩ v =
      ⟨s.frames.tail, s.results.tail.modifyHead (· ++ [v]), s.enters, s.leaves + 1⟩ := by
    cases results <;> rfl
  unfold leave
  simp only [hreport]
  cases hr : bindings.runtime? frame.running.keyword with
  | none =>
    have hhook : bindings.callsLeave frame.running.keyword = false := by
      simp [Bindings.callsLeave, hr]
    have hcalls : bindings.leaveCalls frame frames.reverse children = [] := by
      simp [Bindings.leaveCalls, hhook]
    simp only [Option.filter_none, ← hcalls]
    exact .closed (.plain hhook)
  | some runtime =>
    by_cases hhook : runtime.hasLeaveHook = true
    · have hcalls : bindings.leaveCalls frame frames.reverse children =
          [.leave frame frames.reverse children] := by
        simp [Bindings.leaveCalls, Bindings.callsLeave, hr, hhook]
      simp only [Option.filter_some, hhook, if_true, ancestors, ← hcalls]
      cases hresult : runtime.implementation.leaveScope frame frames.reverse children with
      | error e => exact .failed (.raised hr hhook hresult)
      | ok v => exact .closed (.value hr hhook hresult)
    · have hplain : bindings.callsLeave frame.running.keyword = false := by
        simp [Bindings.callsLeave, hr, hhook]
      have hcalls : bindings.leaveCalls frame frames.reverse children = [] := by
        simp [Bindings.leaveCalls, hplain]
      simp only [Option.filter_some, hhook, ← hcalls]
      exact .closed (.plain hplain)

/-- Closing a scope finds none, or closes that of the innermost frame. -/
theorem leave_cases (s : ScopeStack) (bindings : Bindings) :
    ((s.frames = [] ∨ s.results = []) ∧ s.leave bindings = ⟨s, [], .error .underflow⟩) ∨
      ∃ frame frames children results, s.frames = frame :: frames ∧
        s.results = children :: results ∧
        s.Leaves bindings frame frames.reverse children (s.leave bindings) := by
  by_cases hbare : s.frames = [] ∨ s.results = []
  · exact .inl ⟨hbare, leave_of_bare hbare bindings⟩
  · rw [not_or] at hbare
    obtain ⟨frame, frames, hframes⟩ := List.exists_cons_of_ne_nil hbare.1
    obtain ⟨children, results, hresults⟩ := List.exists_cons_of_ne_nil hbare.2
    exact .inr ⟨frame, frames, children, results, hframes, hresults,
      leaves_leave hframes hresults bindings⟩

end ScopeStack

namespace ScopeEvent

/-- The request opened the scope of a frame. Its enter hook, if there is one, was shown the frames
around it and returned what the frame keeps. -/
structure Opens (e : ScopeEvent) (frame : Frame) : Prop where
  change : e.change = .opened
  after : e.after = e.before.push frame
  calls : ∀ call ∈ e.calls, call = .enter frame.running e.before.ancestors
  answered : ∃ bindings : Bindings, e.request = .enter bindings frame.running ∧
    bindings.EnterAnswer frame.running e.before.ancestors (.ok frame.entry)

/-- The request closed the scope of a frame. Its leave hook, if there is one, was shown these
ancestors and children; the result is none if it raised. -/
structure Closes (e : ScopeEvent) (frame : Frame) (ancestors : List Frame)
    (children : List (Option Value)) (result : Option (Option Value)) : Prop where
  change : e.change = .closed result
  answered : ∃ bindings : Bindings, e.request = .leave bindings ∧
    e.calls = bindings.leaveCalls frame ancestors children ∧
    ∃ answer, bindings.LeaveAnswer frame ancestors children answer ∧ answer.toOption = result

/-- The request found no code, an enter hook that raised, or no scope to close. -/
inductive Refused (e : ScopeEvent) : Prop
  | enter {bindings : Bindings} {i : Instance} {err : ScopeError}
      (request : e.request = .enter bindings i)
      (answer : bindings.EnterAnswer i e.before.ancestors (.error err))
  | leave {bindings : Bindings} (request : e.request = .leave bindings)
      (bare : e.before.frames = [] ∨ e.before.results = [])

/-- The three things that a request can do to a stack. -/
inductive Effect (e : ScopeEvent) : Prop
  | refused (refusal : e.Refused) (change : e.change = .refused) (after : e.after = e.before)
      (calls : ∀ call ∈ e.calls, ∃ i, call = .enter i e.before.ancestors)
  | opened {frame : Frame} (opens : e.Opens frame)
  | closed {frame : Frame} {frames : List Frame} {children : List (Option Value)}
      {results : List (List (Option Value))} {result : Option (Option Value)}
      (closes : e.Closes frame frames.reverse children result)
      (topFrame : e.before.frames = frame :: frames)
      (topResults : e.before.results = children :: results)
      (after : e.after =
        ⟨frames, results.modifyHead (· ++ result.toList), e.before.enters, e.before.leaves + 1⟩)

end ScopeEvent

private theorem modifyHead_self (results : List (List (Option Value))) :
    results.modifyHead (fun r => r) = results := by
  cases results <;> rfl

theorem Bindings.eq_enter_of_mem_enterCalls {b : Bindings} {i : Instance} {ancestors : List Frame}
    {call : ScopeCall} (h : call ∈ b.enterCalls i ancestors) : call = .enter i ancestors := by
  unfold enterCalls at h
  split at h
  · exact List.mem_singleton.1 h
  · cases h

namespace ScopeEvent

/-- Every request does one of the three. -/
theorem effect (e : ScopeEvent) : e.Effect := by
  obtain ⟨s, r⟩ := e
  cases r with
  | enter bindings i =>
    have henters := s.enters_enter bindings i
    generalize ho : s.enter bindings i = o at henters
    cases henters with
    | @opened entry answer =>
      have houtcome : outcome ⟨s, .enter bindings i⟩ =
          ⟨s.push ⟨i, entry⟩, bindings.enterCalls i s.ancestors, .ok none⟩ := by
        simp only [outcome, ScopeStack.serve, ho]
        rfl
      have hchange : change ⟨s, .enter bindings i⟩ = .opened := by simp only [change, houtcome]
      have hcalls : ∀ call ∈ calls ⟨s, .enter bindings i⟩, call = .enter i s.ancestors := by
        intro call hcall
        rw [calls, houtcome] at hcall
        exact Bindings.eq_enter_of_mem_enterCalls hcall
      have hopens : Opens ⟨s, .enter bindings i⟩ ⟨i, entry⟩ :=
        ⟨hchange, by rw [after, houtcome], hcalls, bindings, rfl, answer⟩
      exact .opened hopens
    | @failed err answer =>
      have houtcome : outcome ⟨s, .enter bindings i⟩ =
          ⟨s, bindings.enterCalls i s.ancestors, .error err⟩ := by
        simp only [outcome, ScopeStack.serve, ho]
        rfl
      have hchange : change ⟨s, .enter bindings i⟩ = .refused := by simp only [change, houtcome]
      refine .refused (.enter rfl answer) hchange (by rw [after, houtcome]) fun call hcall =>
        ⟨i, ?_⟩
      rw [calls, houtcome] at hcall
      exact Bindings.eq_enter_of_mem_enterCalls hcall
  | leave bindings =>
    obtain ⟨hbare, hleave⟩ | ⟨frame, frames, children, results, hframes, hresults, hleaves⟩ :=
      s.leave_cases bindings
    · have houtcome : outcome ⟨s, .leave bindings⟩ = ⟨s, [], .error .underflow⟩ := hleave
      have hchange : change ⟨s, .leave bindings⟩ = .refused := by simp only [change, houtcome]
      exact .refused (.leave rfl hbare) hchange (by rw [after, houtcome])
        (by simp [calls, houtcome])
    · have ho : outcome ⟨s, .leave bindings⟩ = s.leave bindings := rfl
      generalize s.leave bindings = o at hleaves ho
      cases hleaves with
      | @closed result answer =>
        have hchange : change ⟨s, .leave bindings⟩ = .closed (some result) := by
          simp only [change, ho]
          rfl
        refine .closed ⟨hchange, bindings, rfl, by rw [calls, ho], _, answer, rfl⟩ hframes hresults ?_
        rw [after, ho, hframes, hresults]
        rfl
      | @failed err answer =>
        have hchange : change ⟨s, .leave bindings⟩ = .closed none := by
          simp only [change, ho]
          rfl
        refine .closed ⟨hchange, bindings, rfl, by rw [calls, ho], _, answer, rfl⟩ hframes hresults ?_
        rw [after, ho, hframes, hresults]
        simp [modifyHead_self]

end ScopeEvent

/-! ## Settled events -/

/-- Events that leave open no scope that they opened and close no other, with the results of the
scopes that they opened side by side and that closed without error. The leave hook of each of these
was shown the frame that the enter hook of the scope left, the frames that this hook was shown, and
the results of what was opened directly inside. What was opened further inside has no result here. -/
inductive Settled : List ScopeEvent → List (Option Value) → Prop
  | nil : Settled [] []
  | refused {e : ScopeEvent} {rest : List ScopeEvent} {results : List (Option Value)}
      (refusal : e.Refused) (quiet : e.change = .refused) (following : Settled rest results) :
      Settled (e :: rest) results
  | scope {opening closing : ScopeEvent} {inner rest : List ScopeEvent} {frame : Frame}
      {children results : List (Option Value)} {result : Option (Option Value)}
      (opens : opening.Opens frame) (block : Settled inner children)
      (closes : closing.Closes frame opening.before.ancestors children result)
      (following : Settled rest results) :
      Settled (opening :: (inner ++ closing :: rest)) (result.toList ++ results)

theorem Settled.append {x y : List ScopeEvent} {rs rs' : List (Option Value)} (hx : Settled x rs)
    (hy : Settled y rs') : Settled (x ++ y) (rs ++ rs') := by
  induction hx with
  | nil => exact hy
  | refused refusal quiet following ih => exact .refused refusal quiet ih
  | scope opens block closes following ihblock ih =>
    rw [List.cons_append, List.append_assoc, List.cons_append, List.append_assoc]
    exact .scope opens block closes ih

/-! ## Open scopes -/

/-- The scopes that events opened from an empty stack and left open. Above the event that opened a
scope the events are settled, up to the one that opened the next scope; their results are those of
the children of that scope. -/
inductive Standing : List ScopeEvent → List Frame → List (List (Option Value)) → Prop
  | bottom {events : List ScopeEvent} {results : List (Option Value)}
      (settled : Settled events results) : Standing events [] []
  | scope {events inner : List ScopeEvent} {frames : List Frame}
      {results : List (List (Option Value))} {own : ScopeEvent} {frame : Frame}
      {children : List (Option Value)} (below : Standing events frames results)
      (opens : own.Opens frame) (around : own.before.frames = frames)
      (settled : Settled inner children) :
      Standing (events ++ own :: inner) (frame :: frames) (children :: results)

namespace Standing

variable {events more : List ScopeEvent} {frames : List Frame}
  {results : List (List (Option Value))} {rs : List (Option Value)} {s : ScopeStack}

/-- Settled events add their results to those of the innermost scope. -/
theorem append (h : Standing events frames results) (hmore : Settled more rs) :
    Standing (events ++ more) frames (results.modifyHead (· ++ rs)) := by
  cases h with
  | bottom settled => exact .bottom (settled.append hmore)
  | scope below opens around settled =>
    rw [List.append_assoc, List.cons_append]
    exact .scope below opens around (settled.append hmore)

/-- One more event. -/
theorem event {e : ScopeEvent} (h : Standing events e.before.frames e.before.results) :
    Standing (events ++ [e]) e.after.frames e.after.results := by
  cases e.effect with
  | refused refusal change after calls =>
    rw [after]
    simpa only [List.append_nil, modifyHead_self] using h.append (.refused refusal change .nil)
  | opened opens =>
    rw [opens.after]
    exact .scope h opens rfl .nil
  | @closed frame frames children results result closes topFrame topResults after =>
    rw [after]
    rw [topFrame, topResults] at h
    cases h with
    | @scope events inner _ _ own _ _ below opens around settled =>
      -- the scope with all that happened inside it settles on the one below
      rw [← around] at closes
      have hscope : Settled (own :: (inner ++ e :: [])) (result.toList ++ []) :=
        .scope opens settled closes .nil
      have hbelow := below.append hscope
      rwa [List.append_nil, ← List.cons_append, ← List.append_assoc] at hbelow

end Standing

/-! ## Runs of requests -/

namespace ScopeStack

theorem serveAll_append (s : ScopeStack) (x y : List ScopeRequest) :
    s.serveAll (x ++ y) = (s.serveAll x).serveAll y := List.foldl_append

theorem history_append (s : ScopeStack) (x y : List ScopeRequest) :
    s.history (x ++ y) = s.history x ++ (s.serveAll x).history y := by
  induction x generalizing s with
  | nil => rfl
  | cons r rest ih =>
    rw [List.cons_append, history, history, ih, List.cons_append]
    rfl

/-- What every request keeps holds after all of them. -/
theorem serveAll_induction {P : ScopeStack → Prop}
    (keeps : ∀ e : ScopeEvent, P e.before → P e.after)
    {s : ScopeStack} (h : P s) (requests : List ScopeRequest) : P (s.serveAll requests) := by
  induction requests generalizing s with
  | nil => exact h
  | cons r rest ih => exact ih (keeps ⟨s, r⟩ h)

theorem standing_serveAll {s : ScopeStack} {events : List ScopeEvent}
    (h : Standing events s.frames s.results) (requests : List ScopeRequest) :
    Standing (events ++ s.history requests) (s.serveAll requests).frames
      (s.serveAll requests).results := by
  induction requests generalizing s events with
  | nil => simpa [history, serveAll] using h
  | cons r rest ih =>
    have hfirst := Standing.event (e := ⟨s, r⟩) h
    have hall := ih hfirst
    rwa [List.append_assoc] at hall

/-- The frames and the lists of results are equally many. -/
def Level (s : ScopeStack) : Prop := s.results.length = s.depth

/-- Every scope that was opened was closed or is open. -/
def Tallied (s : ScopeStack) : Prop := s.enters = s.leaves + s.depth

instance (s : ScopeStack) : Decidable s.Level :=
  inferInstanceAs (Decidable (s.results.length = s.depth))

theorem level_empty : empty.Level := rfl

theorem tallied_empty : empty.Tallied := rfl

end ScopeStack

namespace ScopeEvent

theorem level_after (e : ScopeEvent) (h : e.before.Level) : e.after.Level := by
  unfold ScopeStack.Level ScopeStack.depth at *
  cases e.effect with
  | refused refusal change after calls => rwa [after]
  | opened opens => simpa [opens.after, ScopeStack.push] using h
  | closed closes topFrame topResults after =>
    rw [topFrame, topResults] at h
    simpa [after] using h

theorem tallied_after (e : ScopeEvent) (h : e.before.Tallied) : e.after.Tallied := by
  unfold ScopeStack.Tallied ScopeStack.depth at *
  cases e.effect with
  | refused refusal change after calls => rwa [after]
  | opened opens =>
    simp only [opens.after, ScopeStack.push, List.length_cons]
    omega
  | closed closes topFrame topResults after =>
    rw [topFrame, List.length_cons] at h
    simp only [after]
    omega

end ScopeEvent

/-! ## The law -/

namespace ScopeStack

variable {s : ScopeStack} {bindings : Bindings}

theorem state_enter_of_error {i : Instance} {e : ScopeError}
    (h : (s.enter bindings i).result = .error e) : (s.enter bindings i).state = s := by
  have henters := s.enters_enter bindings i
  generalize s.enter bindings i = o at henters h
  cases henters with
  | opened answer => cases h
  | failed answer => rfl

theorem leave_of_depth_eq_zero (h : s.depth = 0) :
    s.leave bindings = ⟨s, [], .error .underflow⟩ :=
  leave_of_bare (.inl (List.length_eq_zero_iff.1 h)) bindings

theorem state_leave_of_hook {e : HookError} (h : (s.leave bindings).result = .error (.hook e)) :
    (s.leave bindings).state = ⟨s.frames.tail, s.results.tail, s.enters, s.leaves + 1⟩ := by
  obtain ⟨-, hleave⟩ | ⟨frame, frames, children, results, -, -, hleaves⟩ := s.leave_cases bindings
  · rw [hleave] at h
    cases h
  · generalize s.leave bindings = o at hleaves h
    cases hleaves with
    | closed answer => cases h
    | failed answer => rfl

theorem Leaves.calls_eq {frame : Frame} {ancestors : List Frame} {children : List (Option Value)}
    {o : Outcome ScopeStack ScopeError (Option Value)}
    (h : s.Leaves bindings frame ancestors children o) :
    o.calls = bindings.leaveCalls frame ancestors children := by
  cases h <;> rfl

end ScopeStack

/-- The law of scope stacks, after the given events. -/
structure ScopeStack.Lawful (events : List ScopeEvent) (s : ScopeStack) : Prop where
  level : s.results.length = s.depth
  tallied : s.enters = s.leaves + s.depth
  /-- A scope is opened exactly if there is code whose enter hook, if it has one, does not raise. -/
  enter : ∀ bindings i, s.Enters bindings i (s.enter bindings i)
  /-- A scope that is not opened, be it for its hook or for want of code, changes nothing. -/
  enterFails : ∀ bindings i e, (s.enter bindings i).result = .error e →
    (s.enter bindings i).state = s
  leaveEmpty : s.depth = 0 → ∀ bindings, s.leave bindings = ⟨s, [], .error .underflow⟩
  /-- A leave hook that raises takes the innermost frame and its results away and nothing else. -/
  leaveFails : ∀ bindings e, (s.leave bindings).result = .error (.hook e) →
    (s.leave bindings).state = ⟨s.frames.tail, s.results.tail, s.enters, s.leaves + 1⟩
  /-- A leave hook is shown the frame that its own event pushed, the frames that this event met, and
  the results of the scopes that were opened directly on top of the frame. What it answers is the
  result of the scope, and the scope below gets it. -/
  leave : ∀ frame frames, s.frames = frame :: frames →
    ∃ earlier own inner children, events = earlier ++ own :: inner ∧ own.Opens frame ∧
      own.before.frames = frames ∧ Settled inner children ∧
      ∀ bindings,
        (s.leave bindings).calls = bindings.leaveCalls frame own.before.ancestors children ∧
        s.Leaves bindings frame own.before.ancestors children (s.leave bindings)

/-! ### A sample

A tour has stops, walks with stops of their own, and detours. Stops answer when they close, walks do
not, detours raise, and for the map of the tour there is no code.
-/

namespace Tour

/-- An instance of the keyword in that place. -/
def running (place : Nat) (name : String) : Instance :=
  .new ⟨⟨0, [place]⟩, ⟨name, .scriptBlock, .optionalMany, none, [], [], [], false,
    ⟨⟨11⟩, "Tours", "1.0"⟩⟩⟩ allSets

/-- The code of the keyword in that place. -/
def entry (place : Nat) (name : String) (b : Behavior) : KeywordId × RuntimeInfo :=
  (⟨0, [place]⟩, .of ⟨name, fun _ => none, b.supplied, b⟩)

/-- The code of tours, stops, walks and detours. -/
def code : Bindings where
  entries := [
    entry 0 "Tour" { enterScope := some fun _ _ => .ok (.string "ready")
                     leaveScope := some fun _ _ children => .ok (.int (.ofNat children.length)) },
    entry 1 "Stop" { leaveScope := some fun _ _ _ => .ok (.string "seen") },
    entry 2 "Walk" { enterScope := some fun _ ancestors => .ok (.int (.ofNat ancestors.length)) },
    entry 3 "Detour" { leaveScope := some fun _ _ _ => .error ⟨"no way back"⟩ }]

/-- A tour as its scope is open. -/
def frame : Frame := ⟨running 0 "Tour", some (.string "ready")⟩

/-- A tour with a stop, a walk with another stop, and a detour. -/
def requests : List ScopeRequest :=
  let enter := fun place name => ScopeRequest.enter code (running place name)
  [enter 0 "Tour", enter 4 "Map", enter 1 "Stop", .leave code, enter 2 "Walk", enter 1 "Stop",
    .leave code, .leave code, enter 3 "Detour", .leave code]

end Tour

/-- A stack that was empty once is lawful after any requests. -/
theorem ScopeStack.lawful_serveAll (requests : List ScopeRequest) :
    (empty.serveAll requests).Lawful (empty.history requests) := by
  have hlevel := serveAll_induction ScopeEvent.level_after level_empty requests
  have htallied := serveAll_induction ScopeEvent.tallied_after tallied_empty requests
  have hbottom : Standing [] empty.frames empty.results := .bottom .nil
  have hstanding := standing_serveAll hbottom requests
  rw [List.nil_append] at hstanding
  generalize empty.serveAll requests = s, empty.history requests = events at *
  refine ⟨hlevel, htallied, s.enters_enter, fun _ _ _ => state_enter_of_error,
    fun h _ => leave_of_depth_eq_zero h, fun _ _ => state_leave_of_hook,
    fun frame frames hframes => ?_⟩
  obtain ⟨results, hresults⟩ : ∃ results, s.results = results := ⟨_, rfl⟩
  rw [hframes, hresults] at hstanding
  cases hstanding with
  | @scope earlier inner _ results own _ children below opens around settled =>
    refine ⟨earlier, own, inner, children, rfl, opens, around, settled, fun bindings => ?_⟩
    have hleaves := leaves_leave hframes hresults bindings
    rw [← around] at hleaves
    exact ⟨hleaves.calls_eq, hleaves⟩

/-- A tour that ends is shown its own stop and its walk, which has no result, but neither the stop
on that walk nor the detour. -/
theorem ScopeStack.lawful_serveAll_tour :
    let s := empty.serveAll Tour.requests
    let children := [some (Value.string "seen"), none]
    s.frames = [Tour.frame] ∧
      s.enter Tour.code (Tour.running 4 "Map") = ⟨s, [], .error (.unbound "Map")⟩ ∧
      (s.leave Tour.code).calls = [.leave Tour.frame [] children] ∧
      (s.leave Tour.code).result = .ok (some (.int 2)) ∧
      ∃ earlier own inner, empty.history Tour.requests = earlier ++ own :: inner ∧
        own.Opens Tour.frame ∧ Settled inner children := by
  intro s children
  have hlaw : s.Lawful (empty.history Tour.requests) := lawful_serveAll Tour.requests
  have hframes : s.frames = [Tour.frame] := by with_unfolding_all rfl
  have hcalls : (s.leave Tour.code).calls = [.leave Tour.frame [] children] := by
    with_unfolding_all rfl
  obtain ⟨earlier, own, inner, shown, hevents, hopens, -, hsettled, hleave⟩ :=
    hlaw.leave _ _ hframes
  obtain ⟨hown, -⟩ := hleave Tour.code
  have hhook : Tour.code.callsLeave Tour.frame.running.keyword = true := by with_unfolding_all rfl
  rw [hcalls, Bindings.leaveCalls, if_pos hhook] at hown
  obtain rfl : children = shown := by
    injection hown with hcall
    injection hcall
  refine ⟨hframes, by with_unfolding_all rfl, hcalls, by with_unfolding_all rfl, earlier, own, inner,
    hevents, hopens, hsettled⟩

end KeywordEngine
