import KeywordEngine.Proofs.Conformance
import KeywordEngine.Proofs.ScopeHistory

/-!
# What a failed run leaves on the stack

Code need not be bracketed: a host may run any instructions in any context. The scopes that such a
run opens and closes are told from its requests to the scope stack
(`ExecutionContext.scopeRequests`). A failed run is cut back to the height at which it started. So
it takes away every scope that it opened above that height, and it keeps as many of its own as it
had closed older ones.

* `ScopeLedger`: the scopes that events opened and did not close, and how many older ones they
  closed. `ScopeLedger.Accounts.event` is the step, `accounts_serveAll` the run.
* `ExecutionContext.scope_run`: the stack that a run leaves and its hook calls are told from its
  requests.
* `ExecutionContext.unwinds_execute`: what is left after a failure.
-/

namespace KeywordEngine

/-! ## Requests of a run -/

namespace ExecutionContext

variable (bindings : Bindings)

/-- The request that an instruction makes to the scope stack. -/
def scopeRequest? (c : ExecutionContext) : Instruction → Option ScopeRequest
  | .enterScope => c.pending.map (.enter bindings)
  | .leaveScope => some (.leave bindings)
  | .instantiate .. | .assignProperties _ | .assign .. | .evaluate _ => none

/-- The requests that a run makes to the scope stack, up to its first error. -/
def scopeRequests (c : ExecutionContext) : Fragment → List ScopeRequest
  | [] => []
  | i :: rest =>
    let first := c.step bindings i
    (c.scopeRequest? bindings i).toList ++
      match first.result with
      | .error _ => []
      | .ok () => first.state.scopeRequests rest

theorem scope_step (c : ExecutionContext) (i : Instruction) :
    (c.step bindings i).state.scope = c.scope.serveAll (c.scopeRequest? bindings i).toList ∧
      (c.step bindings i).calls =
        (c.scope.history (c.scopeRequest? bindings i).toList).flatMap (·.calls) := by
  cases i with
  | instantiate k set arguments =>
    rw [step_instantiate]
    cases instantiate c.vars k set arguments <;> exact ⟨rfl, rfl⟩
  | assignProperties properties =>
    rw [step_assignProperties]
    cases resolvePlans c.vars properties <;> cases c.pending <;> exact ⟨rfl, rfl⟩
  | enterScope =>
    cases hp : c.pending with
    | none => simp [step, scopeRequest?, hp, ScopeStack.serveAll, ScopeStack.history]
    | some i =>
      simp [step, scopeRequest?, hp, ScopeStack.serveAll, ScopeStack.history, ScopeStack.serve,
        ScopeEvent.calls, ScopeEvent.outcome]
  | leaveScope =>
    simp only [step]
    split <;> simp [scopeRequest?, ScopeStack.serveAll, ScopeStack.history, ScopeStack.serve,
        ScopeEvent.calls, ScopeEvent.outcome]
  | assign target value =>
    rw [step_assign]
    cases evaluate c.vars value <;> exact ⟨rfl, rfl⟩
  | evaluate e =>
    rw [step_evaluate]
    cases evaluate c.vars e <;> exact ⟨rfl, rfl⟩

/-- A run leaves the stack that its requests leave, and calls the hooks that they call. -/
theorem scope_run (c : ExecutionContext) (f : Fragment) :
    (c.run bindings f).state.scope = c.scope.serveAll (c.scopeRequests bindings f) ∧
      (c.run bindings f).calls =
        (c.scope.history (c.scopeRequests bindings f)).flatMap (·.calls) := by
  induction f generalizing c with
  | nil => exact ⟨rfl, rfl⟩
  | cons i rest ih =>
    obtain ⟨hscope, hcalls⟩ := c.scope_step bindings i
    rw [scopeRequests, ScopeStack.serveAll_append, ScopeStack.history_append, List.flatMap_append,
      ← hscope, ← hcalls, run]
    cases hfirst : (c.step bindings i).result with
    | error e => simp [ScopeStack.serveAll, ScopeStack.history]
    | ok u =>
      obtain ⟨hrest, hothers⟩ := ih (c.step bindings i).state
      exact ⟨hrest, by rw [← hothers]⟩

end ExecutionContext

/-! ## Ledgers -/

/-- What became of scopes: the events that opened those that are still open, the innermost first,
and the number of older scopes that were closed. -/
structure ScopeLedger where
  opened : List ScopeEvent
  left : Nat

namespace ScopeLedger

/-- The ledger after one more event. A scope that closes is the one opened last, or an older one if
all that were opened are closed. -/
def add (l : ScopeLedger) (e : ScopeEvent) : ScopeLedger :=
  match e.change, l.opened with
  | .refused, _ => l
  | .opened, _ => { l with opened := e :: l.opened }
  | .closed _, _ :: outer => { l with opened := outer }
  | .closed _, [] => { l with left := l.left + 1 }

/-- The ledger of events. -/
def of (events : List ScopeEvent) : ScopeLedger := events.foldl add ⟨[], 0⟩

end ScopeLedger

/-- Frames on top of others, each pushed by an event that met those below it. -/
inductive Stacked (base : List Frame) : List ScopeEvent → List Frame → Prop
  | base : Stacked base [] base
  | push {own : ScopeEvent} {opened : List ScopeEvent} {frame : Frame} {frames : List Frame}
      (below : Stacked base opened frames) (opens : own.Opens frame)
      (around : own.before.frames = frames) : Stacked base (own :: opened) (frame :: frames)

namespace Stacked

variable {base frames : List Frame} {opened : List ScopeEvent}

theorem length_eq (h : Stacked base opened frames) :
    frames.length = opened.length + base.length := by
  induction h with
  | base => simp
  | push below opens around ih =>
    rw [List.length_cons, List.length_cons, ih]
    omega

/-- The events met fewer frames than there are now. -/
theorem depth_lt (h : Stacked base opened frames) {own : ScopeEvent} (hown : own ∈ opened) :
    own.before.depth < frames.length := by
  induction h with
  | base => cases hown
  | push below opens around ih =>
    rcases List.mem_cons.1 hown with rfl | hown
    · simp [ScopeStack.depth, around]
    · exact Nat.lt_succ_of_lt (ih hown)

/-- What is left when frames are taken from the top. -/
theorem drop (h : Stacked base opened frames) {n : Nat} (hn : n ≤ opened.length) :
    Stacked base (opened.drop n) (frames.drop n) := by
  induction h generalizing n with
  | base =>
    obtain rfl : n = 0 := Nat.le_zero.1 hn
    exact .base
  | push below opens around ih =>
    cases n with
    | zero => exact .push below opens around
    | succ n => exact ih (Nat.le_of_succ_le_succ hn)

theorem exists_append (h : Stacked base opened frames) :
    ∃ entered, frames = entered ++ base ∧ List.Forall₂ ScopeEvent.Opens opened entered := by
  induction h with
  | base => exact ⟨[], rfl, .nil⟩
  | push below opens around ih =>
    obtain ⟨entered, rfl, hentered⟩ := ih
    exact ⟨_ :: entered, rfl, .cons opens hentered⟩

end Stacked

namespace ScopeLedger

/-- A ledger is right about a stack and the events that led to it from `start`. After the event that
opened a scope which is still open, hooks are called only about scopes further up. -/
structure Accounts (start : ScopeStack) (events : List ScopeEvent) (l : ScopeLedger)
    (s : ScopeStack) : Prop where
  left_le : l.left ≤ start.depth
  stacked : Stacked (start.frames.drop l.left) l.opened s.frames
  later : ∀ own ∈ l.opened, ∃ before after, events = before ++ own :: after ∧
    ∀ e ∈ after, ∀ call ∈ e.calls, own.before.depth < call.ancestors.length

namespace Accounts

variable {start : ScopeStack} {events : List ScopeEvent} {l : ScopeLedger}

/-- One more event that calls hooks only about scopes above those that stay open. -/
theorem later_append {s : ScopeStack} (h : l.Accounts start events s) {own e : ScopeEvent}
    (hown : own ∈ l.opened) (hcalls : ∀ call ∈ e.calls, own.before.depth < call.ancestors.length) :
    ∃ before after, events ++ [e] = before ++ own :: after ∧
      ∀ e ∈ after, ∀ call ∈ e.calls, own.before.depth < call.ancestors.length := by
  obtain ⟨before, after, rfl, hafter⟩ := h.later own hown
  refine ⟨before, after ++ [e], by simp, ?_⟩
  simp only [List.forall_mem_append, List.forall_mem_singleton]
  exact ⟨hafter, hcalls⟩

theorem event {e : ScopeEvent} (h : l.Accounts start events e.before) :
    (l.add e).Accounts start (events ++ [e]) e.after := by
  cases e.effect with
  | refused refusal change after calls =>
    have hadd : l.add e = l := by simp only [add, change]
    rw [hadd, after]
    refine ⟨h.left_le, h.stacked, fun own hown => h.later_append hown fun call hcall => ?_⟩
    obtain ⟨i, rfl⟩ := calls call hcall
    simpa [ScopeCall.ancestors, ScopeStack.ancestors] using h.stacked.depth_lt hown
  | @opened frame opens =>
    have hadd : l.add e = { l with opened := e :: l.opened } := by simp only [add, opens.change]
    rw [hadd, opens.after]
    refine ⟨h.left_le, .push h.stacked opens rfl, fun own hown => ?_⟩
    rcases List.mem_cons.1 hown with rfl | hown
    · exact ⟨events, [], rfl, by simp⟩
    · refine h.later_append hown fun call hcall => ?_
      rw [opens.calls call hcall]
      simpa [ScopeCall.ancestors, ScopeStack.ancestors] using h.stacked.depth_lt hown
  | @closed frame frames children results result closes topFrame topResults after =>
    obtain ⟨opened, left⟩ := l
    have hstacked := h.stacked
    rw [topFrame] at hstacked
    cases opened with
    | nil =>
      -- none of the scopes that were opened is left, so this one is older
      have hadd : add ⟨[], left⟩ e = ⟨[], left + 1⟩ := by simp only [add, closes.change]
      have hbase : start.frames.drop left = frame :: frames := by
        generalize start.frames.drop left = base at hstacked
        cases hstacked
        rfl
      have hlt : left < start.frames.length := by
        have hlength := congrArg List.length hbase
        rw [List.length_drop, List.length_cons] at hlength
        omega
      have hrest : start.frames.drop (left + 1) = frames := by
        rw [← List.tail_drop, hbase, List.tail_cons]
      rw [hadd, after]
      refine ⟨hlt, ?_, by simp⟩
      rw [hrest]
      exact .base
    | cons own outer =>
      have hadd : add ⟨own :: outer, left⟩ e = ⟨outer, left⟩ := by simp only [add, closes.change]
      rw [hadd, after]
      cases hstacked with
      | push below opens around =>
        refine ⟨h.left_le, below, fun other hother => ?_⟩
        refine h.later_append (List.mem_cons_of_mem _ hother) fun call hcall => ?_
        obtain ⟨bindings, -, hcalls, -⟩ := closes.answered
        rw [hcalls] at hcall
        unfold Bindings.leaveCalls at hcall
        split at hcall
        · obtain rfl := List.mem_singleton.1 hcall
          simpa [ScopeCall.ancestors] using below.depth_lt hother
        · cases hcall

end Accounts

/-- The ledger of the requests that a stack served is right about the stack. -/
theorem accounts_serveAll (s : ScopeStack) (requests : List ScopeRequest) :
    (of (s.history requests)).Accounts s (s.history requests) (s.serveAll requests) := by
  have hrun (requests : List ScopeRequest) (now : ScopeStack) (events : List ScopeEvent)
      (l : ScopeLedger) (h : l.Accounts s events now) :
      ((now.history requests).foldl add l).Accounts s (events ++ now.history requests)
        (now.serveAll requests) := by
    induction requests generalizing now events l with
    | nil => simpa [ScopeStack.history, ScopeStack.serveAll] using h
    | cons r rest ih =>
      have hall := ih _ _ _ (Accounts.event (e := ⟨now, r⟩) h)
      rwa [List.append_assoc] at hall
  exact hrun requests s [] ⟨[], 0⟩ ⟨Nat.zero_le _, .base, by simp⟩

end ScopeLedger

/-! ## Failed runs -/

/-- Cutting a stack back to the height of `start` keeps as many of the scopes opened since as older
ones were closed. -/
theorem ScopeLedger.Accounts.stacked_unwindTo {start s : ScopeStack} {events : List ScopeEvent}
    {l : ScopeLedger} (h : l.Accounts start events s) :
    Stacked (start.frames.drop l.left) (l.opened.drop (l.opened.length - l.left))
      (s.unwindTo start.depth).frames := by
  have hlength := h.stacked.length_eq
  have hleft := h.left_le
  rw [List.length_drop] at hlength
  have hcut : s.frames.length - start.depth = l.opened.length - l.left := by
    unfold ScopeStack.depth at hleft ⊢
    omega
  show Stacked _ _ (s.frames.drop (s.frames.length - start.depth))
  rw [hcut]
  exact h.stacked.drop (Nat.sub_le _ _)

theorem ScopeStack.Level.unwindTo {s : ScopeStack} (h : s.Level) (depth : Nat) :
    (s.unwindTo depth).Level := by
  unfold Level ScopeStack.depth ScopeStack.unwindTo at *
  rw [List.length_drop, List.length_drop, h]

namespace Sample

/-- A context in which the scope of a suite is open. -/
def inSuite : ExecutionContext :=
  (ExecutionContext.empty.execute code
    [.instantiate ⟨⟨0, [0]⟩, suite⟩ allSets [], .enterScope]).state

/-- Code that opens a scope for a setup and, in it, one for a check whose leave hook fails. -/
def unfinished : Fragment := [
  .instantiate ⟨⟨0, [0, 1]⟩, setup⟩ allSets [], .enterScope,
  .instantiate ⟨⟨0, [0, 0]⟩, check⟩ allSets [], .enterScope, .leaveScope]

/-- Code that closes the scope around it, opens one for a setup and fails. -/
def exchange : Fragment := [
  .leaveScope, .instantiate ⟨⟨0, [0, 1]⟩, setup⟩ allSets [], .enterScope,
  .evaluate (.readVariable "missing")]

end Sample

namespace ExecutionContext

variable {bindings : Bindings} {c : ExecutionContext} {f : Fragment} {e : ExecutionError}

theorem run_of_execute_error (h : (c.execute bindings f).result = .error e) :
    c.execute bindings f =
      ⟨(c.run bindings f).state.unwind c.scope.depth, (c.run bindings f).calls, .error e⟩ := by
  cases hrun : (c.run bindings f).result with
  | ok u =>
    rw [execute_of_ok hrun, hrun] at h
    cases h
  | error err =>
    rw [execute_of_error hrun] at h ⊢
    cases h
    rfl

/-- A failed run that closed no older scope, or left none of its own open, leaves of the frames that
it found those that it did not close, and no others. In any case these stay as they are, with as
many frames of its own on top of them as it closed older ones, up to those it had. The stack is
level if it was, no instance is pending, and no hook is called for what is cut off: the hooks called
are those of the requests, and after a scope that stayed open was opened they are about scopes
further up. -/
theorem unwinds_execute (h : (c.execute bindings f).result = .error e) :
    let o := c.execute bindings f
    let events := c.scope.history (c.scopeRequests bindings f)
    let l := ScopeLedger.of events
    (l.left = 0 ∨ l.opened = [] → o.state.scope.frames = c.scope.frames.drop l.left) ∧
      (∃ entered, o.state.scope.frames = entered ++ c.scope.frames.drop l.left ∧
        List.Forall₂ ScopeEvent.Opens (l.opened.drop (l.opened.length - l.left)) entered) ∧
      (c.scope.Level → o.state.scope.Level) ∧ o.state.pending = none ∧
      o.calls = events.flatMap (·.calls) ∧
      ∀ own ∈ l.opened, ∃ before after, events = before ++ own :: after ∧
        ∀ e ∈ after, ∀ call ∈ e.calls, own.before.depth < call.ancestors.length := by
  intro o events l
  obtain ⟨hscope, hcalls⟩ := c.scope_run bindings f
  have ho : o = _ := run_of_execute_error h
  have hunwound : o.state.scope = (c.run bindings f).state.scope.unwindTo c.scope.depth := by
    rw [ho]
    rfl
  have haccounts := ScopeLedger.accounts_serveAll c.scope (c.scopeRequests bindings f)
  have hstacked := haccounts.stacked_unwindTo
  rw [← hscope, ← hunwound] at hstacked
  refine ⟨fun hnone => ?_, hstacked.exists_append, fun hlevel => ?_, ?_, ?_, haccounts.later⟩
  · have hdrop : l.opened.drop (l.opened.length - l.left) = [] := by
      obtain hleft | hopened := hnone
      · simp [hleft]
      · simp [hopened]
    obtain ⟨entered, hframes, hentered⟩ := hstacked.exists_append
    rw [hdrop, List.forall₂_nil_left_iff] at hentered
    rw [hframes, hentered, List.nil_append]
  · rw [hunwound, hscope]
    have hrun := ScopeStack.serveAll_induction ScopeEvent.level_after hlevel
      (c.scopeRequests bindings f)
    exact hrun.unwindTo _
  · rw [ho]
    rfl
  · rw [ho]
    exact hcalls

/-- The setup is taken off the suite when the check in it fails. -/
theorem unwinds_execute_unfinished :
    let o := Sample.inSuite.execute Sample.code Sample.unfinished
    o.result = .error (.scope (.hook ⟨"no count"⟩)) ∧
      o.state.scope.frames = Sample.inSuite.scope.frames ∧ o.state.scope.Level := by
  have hlevel : Sample.inSuite.scope.Level := by
    decide +kernel
  have hresult : (Sample.inSuite.execute Sample.code Sample.unfinished).result =
      .error (.scope (.hook ⟨"no count"⟩)) := by
    decide +kernel
  have hleft : (ScopeLedger.of (Sample.inSuite.scope.history
      (Sample.inSuite.scopeRequests Sample.code Sample.unfinished))).left = 0 := by
    decide +kernel
  obtain ⟨hframes, -, hlevels, -⟩ := unwinds_execute hresult
  refine ⟨hresult, ?_, hlevels hlevel⟩
  rw [hframes (.inl hleft), hleft, List.drop_zero]

/-- A failed run that closed the suite around it leaves its own setup on the stack. -/
theorem execute_exchange_keeps_setup :
    Sample.inSuite.scope.frames.map (·.running.name) = ["Suite"] ∧
      (Sample.inSuite.execute Sample.code Sample.exchange).result =
        .error (.unknownVariable "missing") ∧
      (Sample.inSuite.execute Sample.code Sample.exchange).state.scope.frames.map
        (·.running.name) = ["Setup"] := by
  decide +kernel

end ExecutionContext

end KeywordEngine
