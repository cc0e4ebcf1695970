import KeywordEngine.Proofs.Bracketing
import KeywordEngine.Proofs.ScopeErasure

/-!
# Which parse hooks are called

A script has a canonical traversal: around the visits of its block, an invocation is visited before
its arguments are bound, after that, and after its body. Compilation calls hooks along it and stops
at the first that raises or reports.

* `parseVisits`: the traversal, with the hooks that the keywords declare.
* `Compiled.Follows`: how compilation may end when hooks are due. It goes through every step of
  compilation (`Compiled.Follows.bind`).
* `follows_compileStatements`: by induction on the tree of statements.
* `compileScript_congr`: of the scope hooks, compilation asks only whether there are any.
-/

namespace KeywordEngine

/-! ## Visits -/

/-- A visit of an invocation at which one of its parse hooks may be called. -/
inductive ParseVisit where
  | preParse (node : Invocation)
  | postParse (node : Invocation)
  | semanticCheck (node : Invocation)

namespace ParseVisit

/-- The invocation that is visited. -/
def node : ParseVisit → Invocation
  | preParse node | postParse node | semanticCheck node => node

/-- The hook that is due. -/
def hook : ParseVisit → Hook
  | preParse _ => .preParse
  | postParse _ => .postParse
  | semanticCheck _ => .semanticCheck

/-- The call of the hook. -/
def call : ParseVisit → ParseCall
  | preParse node => .preParse node.keyword
  | postParse node => .postParse node
  | semanticCheck node => .semanticCheck node

/-- What an implementation answers. -/
def ask (t : Implementation) : ParseVisit → Except HookError (List Diagnostic)
  | preParse node => t.preParse node.keyword
  | postParse node => t.postParse node
  | semanticCheck node => t.semanticCheck node

/-- Whether the keyword declares the hook. -/
def declared (bindings : Bindings) (v : ParseVisit) : Bool :=
  (bindings.runtime? v.node.keyword).any (·.hooks.contains v.hook)

/-- What the code of the keyword answers, if there is any. -/
def answer? (bindings : Bindings) (v : ParseVisit) : Option (Except HookError (List Diagnostic)) :=
  (bindings.runtime? v.node.keyword).map fun r => v.ask r.implementation

/-- The error of compilation if the hook raises, which is then its own, or reports diagnostics,
which then reject the invocation. -/
def failure? (bindings : Bindings) (v : ParseVisit) : Option CompileError :=
  match v.answer? bindings with
  | none | some (.ok []) => none
  | some (.error e) => some (.hook e)
  | some (.ok diagnostics) =>
    some (.invocation ⟨v.node.keyword.name, v.node.span, .parseErrors diagnostics⟩)

/-- The visit, if the keyword declares the hook. -/
def due (bindings : Bindings) (v : ParseVisit) : List ParseVisit :=
  if v.declared bindings then [v] else []

end ParseVisit

section Traversal

variable (bindings : Bindings)

mutual
/-- The visits of an invocation around those of its block. -/
def Invocation.parseVisits : Invocation → List ParseVisit
  | ⟨keyword, elements, body, span⟩ =>
    let node : Invocation := ⟨keyword, elements, body, span⟩
    (ParseVisit.preParse node).due bindings ++ ((ParseVisit.postParse node).due bindings ++
      ((match body with
        | some (.scriptBlock statements _) => KeywordEngine.parseVisits statements
        | _ => []) ++
      (ParseVisit.semanticCheck node).due bindings))
termination_by structural n => n

/-- The visits of a statement. -/
def Statement.parseVisits : Statement → List ParseVisit
  | .invoke n => n.parseVisits
  | .assign .. => []
  | .evaluate .. => []
termination_by structural s => s

/-- The canonical traversal of statements: the visits at which a hook is declared, in source
order. -/
def parseVisits : List Statement → List ParseVisit
  | [] => []
  | s :: rest => s.parseVisits ++ parseVisits rest
termination_by structural l => l
end

theorem Invocation.parseVisits_eq (n : Invocation) :
    n.parseVisits bindings =
      (ParseVisit.preParse n).due bindings ++ ((ParseVisit.postParse n).due bindings ++
        (KeywordEngine.parseVisits bindings n.block ++
          (ParseVisit.semanticCheck n).due bindings)) := by
  obtain ⟨keyword, elements, body, span⟩ := n
  unfold Invocation.parseVisits Invocation.block
  split <;> simp_all [KeywordEngine.parseVisits]

end Traversal

/-- Only declared hooks are ever due. -/
theorem declared_of_mem_parseVisits {bindings : Bindings} {l : List Statement} {v : ParseVisit}
    (h : v ∈ parseVisits bindings l) : v.declared bindings = true := by
  have hdue {w : ParseVisit} (hw : v ∈ w.due bindings) : v.declared bindings = true := by
    unfold ParseVisit.due at hw
    split at hw
    · obtain rfl := List.mem_singleton.1 hw
      assumption
    · cases hw
  induction l using statements_induction with
  | nil => simp [parseVisits] at h
  | assign target value span rest ih =>
    rw [parseVisits, Statement.parseVisits, List.nil_append] at h
    exact ih h
  | evaluate e span rest ih =>
    rw [parseVisits, Statement.parseVisits, List.nil_append] at h
    exact ih h
  | invoke n rest ihblock ih =>
    rw [parseVisits, Statement.parseVisits, Invocation.parseVisits_eq] at h
    simp only [List.mem_append] at h
    obtain (h | h | h | h) | h := h
    · exact hdue h
    · exact hdue h
    · exact ihblock h
    · exact hdue h
    · exact ih h

/-! ## Outcomes -/

/-- The visit comes after the arguments are bound, if it is one that has to. -/
def ParseVisit.Ready (bindArgs : ArgumentBinder) : ParseVisit → Prop
  | postParse n => ∃ bound, bindArgs n.keyword.spec n.elements n.span = .ok bound
  | preParse _ | semanticCheck _ => True

/-- The visit is made when it may be, and compilation goes on after it. -/
structure ParseVisit.Passes (bindArgs : ArgumentBinder) (bindings : Bindings) (v : ParseVisit) :
    Prop where
  ready : v.Ready bindArgs
  quiet : v.failure? bindings = none

/-- How compilation may end when visits are due: all of them pass; or those made so far pass and
something else rejects an invocation; or the last one made fails. -/
inductive Compiled.Follows {α : Type} (bindArgs : ArgumentBinder) (bindings : Bindings) :
    List ParseVisit → Compiled α → Prop
  | done {due : List ParseVisit} (passed : ∀ v ∈ due, v.Passes bindArgs bindings) (a : α) :
      Follows bindArgs bindings due ⟨due.map (·.call), .ok a⟩
  | rejected (made : List ParseVisit) (passed : ∀ v ∈ made, v.Passes bindArgs bindings)
      (later : List ParseVisit) (e : InvocationError) :
      Follows bindArgs bindings (made ++ later) ⟨made.map (·.call), .error (.invocation e)⟩
  | failed (made : List ParseVisit) (passed : ∀ v ∈ made, v.Passes bindArgs bindings)
      {v : ParseVisit} {e : CompileError} (ready : v.Ready bindArgs)
      (failure : v.failure? bindings = some e) (later : List ParseVisit) :
      Follows bindArgs bindings (made ++ v :: later) ⟨(made ++ [v]).map (·.call), .error e⟩

namespace Compiled.Follows

variable {α β : Type} {bindArgs : ArgumentBinder} {bindings : Bindings}
  {due more : List ParseVisit} {x : Compiled α}

theorem pure (a : α) : Follows bindArgs bindings [] (Pure.pure a) :=
  .done (List.forall_mem_nil _) a

theorem reject (due : List ParseVisit) (keyword : String) (span : Span) (reason : Rejection) :
    Follows bindArgs bindings due (Compiled.reject keyword span reason : Compiled α) :=
  .rejected [] (List.forall_mem_nil _) due _

/-- No hook is due at a check. -/
theorem check {r : Except InvocationError α} {f : α → Compiled β}
    (hf : ∀ a, r = .ok a → Follows bindArgs bindings due (f a)) :
    Follows bindArgs bindings due (Compiled.ofCheck r >>= f) := by
  cases r with
  | error e => exact .rejected [] (List.forall_mem_nil _) due e
  | ok a =>
    have hpure : (Compiled.ofCheck (.ok a) >>= f) = f a := pure_bind a f
    rw [hpure]
    exact hf a rfl

theorem bind (h : Follows bindArgs bindings due x) {f : α → Compiled β}
    (hf : ∀ a, x.result = .ok a → Follows bindArgs bindings more (f a)) :
    Follows bindArgs bindings (due ++ more) (x >>= f) := by
  cases h with
  -- after a failure `f` does not run, so what was due for it is left as well
  | rejected _ passed later e =>
    rw [List.append_assoc]
    exact .rejected _ passed (later ++ more) e
  | failed _ passed ready failure later =>
    rw [List.append_assoc, List.cons_append]
    exact .failed _ passed ready failure (later ++ more)
  | done passed a =>
    show Follows bindArgs bindings _ ⟨due.map (·.call) ++ (f a).calls, (f a).result⟩
    have hnext := hf a rfl
    revert hnext
    generalize f a = next
    intro hnext
    cases hnext with
    | done passed' b =>
      rw [← List.map_append]
      exact .done (List.forall_mem_append.2 ⟨passed, passed'⟩) b
    | rejected _ passed' later e =>
      rw [← List.map_append, ← List.append_assoc]
      exact .rejected _ (List.forall_mem_append.2 ⟨passed, passed'⟩) later e
    | failed _ passed' ready failure later =>
      rw [← List.map_append, ← List.append_assoc, ← List.append_assoc]
      exact .failed _ (List.forall_mem_append.2 ⟨passed, passed'⟩) ready failure later

/-- What always succeeds without calls may follow. -/
theorem map (h : Follows bindArgs bindings due x) (f : α → β) :
    Follows bindArgs bindings due (x >>= fun a => Pure.pure (f a)) := by
  have hbind := h.bind fun a _ => Follows.pure (f a)
  rwa [List.append_nil] at hbind

end Compiled.Follows

/-! ## Compilation -/

section Scripts

variable {bindArgs : ArgumentBinder} {bindings : Bindings}

/-- A visit of an invocation whose keyword has code. -/
def RuntimeInfo.visit (r : RuntimeInfo) (v : ParseVisit) : Compiled Unit :=
  if r.hooks.contains v.hook then
    .ofHook v.call v.node.keyword.name v.node.span (v.ask r.implementation)
  else .pure ()

theorem follows_visit {r : RuntimeInfo} {v : ParseVisit}
    (hr : bindings.runtime? v.node.keyword = some r) (ready : v.Ready bindArgs) :
    Compiled.Follows bindArgs bindings (v.due bindings) (r.visit v) := by
  have hdeclared : v.declared bindings = r.hooks.contains v.hook := by
    simp [ParseVisit.declared, hr]
  have hanswer : v.answer? bindings = some (v.ask r.implementation) := by
    simp [ParseVisit.answer?, hr]
  unfold ParseVisit.due RuntimeInfo.visit
  rw [hdeclared]
  split
  · have hfailed {e : CompileError} (h : v.failure? bindings = some e) :=
      Compiled.Follows.failed (α := Unit) [] (List.forall_mem_nil _) ready h []
    unfold Compiled.ofHook
    cases hask : v.ask r.implementation with
    | error e => exact hfailed (by simp [ParseVisit.failure?, hanswer, hask])
    | ok diagnostics =>
      cases diagnostics with
      | nil =>
        refine .done (List.forall_mem_singleton.2 ⟨ready, ?_⟩) ()
        simp [ParseVisit.failure?, hanswer, hask]
      | cons d rest => exact hfailed (by simp [ParseVisit.failure?, hanswer, hask])
  · exact .pure ()

/-- The hooks of an invocation are called at its visits. -/
theorem compileInvocation_eq_visits {r : RuntimeInfo} {n : Invocation}
    (hr : bindings.runtime? n.keyword = some r) :
    compileInvocation bindArgs bindings n = (do
      r.visit (.preParse n)
      let bound ← Compiled.ofCheck (bindArgs n.keyword.spec n.elements n.span)
      r.visit (.postParse n)
      let code ← n.compileBody bindArgs bindings r
        (.instantiate n.keyword bound.set bound.arguments)
      r.visit (.semanticCheck n)
      return code) :=
  compileInvocation_eq bindArgs bindings hr

theorem follows_compileBody {n : Invocation} {r : RuntimeInfo} (instantiate : Instruction)
    (hblock : Compiled.Follows bindArgs bindings (parseVisits bindings n.block)
      (compileStatements bindArgs bindings n.block)) :
    Compiled.Follows bindArgs bindings (parseVisits bindings n.block)
      (n.compileBody bindArgs bindings r instantiate) := by
  cases hfits : n.bodyFits with
  | false =>
    rw [compileBody_of_not_bodyFits _ _ hfits]
    exact .reject _ _ _ _
  | true =>
    obtain ⟨hmode, hbody⟩ | ⟨hmode, hbody⟩ | ⟨hmode, span, hbody⟩ := Invocation.bodyFits_iff.1 hfits
    · have hnone : n.block = [] := by simp [Invocation.block, hbody]
      rw [compileBody_of_command _ _ hmode hbody, hnone, parseVisits]
      exact .pure _
    · have hnone : n.block = [] := by simp [Invocation.block, hbody]
      rw [compileBody_of_hashtable _ _ hmode hbody, hnone, parseVisits]
      exact .check fun plans _ => .pure _
    · rw [compileBody_of_scriptBlock _ _ hmode hbody]
      exact .check fun _ _ => hblock.map _

theorem follows_compileInvocation {n : Invocation}
    (hblock : Compiled.Follows bindArgs bindings (parseVisits bindings n.block)
      (compileStatements bindArgs bindings n.block)) :
    Compiled.Follows bindArgs bindings (n.parseVisits bindings)
      (compileInvocation bindArgs bindings n) := by
  cases hr : bindings.runtime? n.keyword with
  | none =>
    rw [compileInvocation_of_unbound _ _ hr]
    exact .reject _ _ _ _
  | some r =>
    rw [compileInvocation_eq_visits hr, Invocation.parseVisits_eq]
    refine (follows_visit (v := .preParse n) hr trivial).bind fun _ _ => ?_
    refine .check fun bound hbound => ?_
    refine (follows_visit (v := .postParse n) hr ⟨bound, hbound⟩).bind fun _ _ => ?_
    refine (follows_compileBody _ hblock).bind fun code _ => ?_
    exact (follows_visit (v := .semanticCheck n) hr trivial).map _

/-- Code one after the other is compiled along the visits one after the other. -/
theorem Compiled.Follows.append {due more : List ParseVisit} {x y : Compiled Fragment}
    (h : Compiled.Follows bindArgs bindings due x)
    (h' : Compiled.Follows bindArgs bindings more y) :
    Compiled.Follows bindArgs bindings (due ++ more) (do return (← x) ++ (← y)) :=
  h.bind fun _ _ => h'.map _

theorem follows_compileStatements (l : List Statement) :
    Compiled.Follows bindArgs bindings (parseVisits bindings l)
      (compileStatements bindArgs bindings l) := by
  induction l using statements_induction with
  | nil =>
    rw [parseVisits, compileStatements]
    exact .pure _
  | assign target value span rest ih =>
    rw [parseVisits, Statement.parseVisits, compileStatements_cons, compileStatement]
    exact .append (.pure _) ih
  | evaluate e span rest ih =>
    rw [parseVisits, Statement.parseVisits, compileStatements_cons, compileStatement]
    exact .append (.pure _) ih
  | invoke n rest ihblock ih =>
    rw [parseVisits, Statement.parseVisits, compileStatements_cons, compileStatement]
    exact .append (follows_compileInvocation ihblock) ih

theorem follows_compileTopStatement (s : Statement) :
    Compiled.Follows bindArgs bindings (s.parseVisits bindings)
      (compileTopStatement bindArgs bindings s) := by
  cases s with
  | assign target value span =>
    simp only [Statement.parseVisits, compileTopStatement, compileStatement]
    exact .pure _
  | evaluate e span =>
    simp only [Statement.parseVisits, compileTopStatement, compileStatement]
    exact .pure _
  | invoke n =>
    rw [Statement.parseVisits, compileTopStatement]
    split
    · exact .reject _ _ _ _
    · exact follows_compileInvocation (follows_compileStatements n.block)

theorem follows_compileScript (script : List Statement) :
    Compiled.Follows bindArgs bindings (parseVisits bindings script)
      (compileScript bindArgs bindings script) := by
  induction script with
  | nil =>
    rw [parseVisits]
    exact .pure _
  | cons s rest ih =>
    rw [parseVisits, compileScript_cons]
    exact .append (follows_compileTopStatement s) ih

end Scripts

/-! ## Scope hooks -/

/-- What is alike to one outcome through a function is one outcome. -/
theorem Compiled.Alike.unique {α β : Type} {R : α → β → Prop} {x : Compiled α} {y z : Compiled β}
    (h : Compiled.Alike R x y) (h' : Compiled.Alike R x z)
    (hR : ∀ a b c, R a b → R a c → b = c) : y = z := by
  cases h with
  | error calls e =>
    cases h'
    rfl
  | ok calls related =>
    cases h' with
    | ok _ related' => rw [hR _ _ _ related related']

/-- Of the code behind keywords, compilation sees their parse hooks and whether they open scopes. -/
theorem compileScript_congr {bindArgs : ArgumentBinder} {b b' : Bindings} {script : List Statement}
    (h : ∀ n ∈ reachedInvocations script, b.SameParseHooks b' n.keyword)
    (hopens : b'.opensScope = b.opensScope) :
    compileScript bindArgs b script = compileScript bindArgs b' script := by
  have hfull : ∀ n ∈ reachedInvocations script, b.withScopeHooks.Opens b n.keyword :=
    fun n _ => b.opens_withScopeHooks n.keyword
  have hb := @alike_compileScript bindArgs _ _ script hfull
  have hb' := @alike_compileScript bindArgs _ _ script
    fun n hn => (hfull n hn).of_sameParseHooks (h n hn)
  rw [hopens] at hb'
  exact hb.unique hb' fun _ _ _ herased herased' => herased.erased.symm.trans herased'.erased

/-- The code with the bodies that another behavior has for the scope hooks. -/
def RuntimeInfo.withScopeBodies (r : RuntimeInfo) (other : Behavior) : RuntimeInfo where
  implementation := { r.implementation with
    behavior := { r.implementation.behavior with
      enterScope := other.enterScope
      leaveScope := other.leaveScope } }
  hooks := r.hooks

namespace Bindings

/-- The bindings with other bodies of the scope hooks of each keyword. -/
def withScopeBodies (b : Bindings) (other : KeywordId → Behavior) : Bindings :=
  ⟨b.entries.map fun e => (e.1, e.2.withScopeBodies (other e.1))⟩

theorem find?_withScopeBodies (b : Bindings) (other : KeywordId → Behavior) (id : KeywordId) :
    (b.withScopeBodies other).find? id = (b.find? id).map (·.withScopeBodies (other id)) := by
  obtain ⟨entries⟩ := b
  simp only [withScopeBodies, find?]
  induction entries with
  | nil => rfl
  | cons e rest ih =>
    rw [List.map_cons, List.lookup_cons, List.lookup_cons, ih]
    by_cases he : id = e.1
    · simp [he]
    · simp [beq_eq_false_iff_ne.2 he]

theorem sameParseHooks_withScopeBodies (b : Bindings) (other : KeywordId → Behavior)
    (k : Keyword) : b.SameParseHooks (b.withScopeBodies other) k := by
  unfold SameParseHooks
  rw [runtime?, runtime?, find?_withScopeBodies]
  cases b.find? k.id with
  | none => exact .none
  | some r => exact .some ⟨rfl, rfl, rfl, fun _ => rfl, fun _ => rfl, fun _ => rfl⟩

theorem opensScope_withScopeBodies (b : Bindings) (other : KeywordId → Behavior) :
    (b.withScopeBodies other).opensScope = b.opensScope := by
  funext k
  unfold opensScope
  rw [runtime?, runtime?, find?_withScopeBodies, Option.any_map]
  rfl

end Bindings

/-! ## The protocol -/

/-- What the hooks called by compilation have to do with the traversal and the outcome. -/
structure ParseProtocol (bindArgs : ArgumentBinder) (bindings : Bindings)
    (traversal made : List ParseVisit) (o : Compiled Fragment) : Prop where
  calls : o.calls = made.map (·.call)
  inOrder : made <+: traversal
  whole : ∀ f, o.result = .ok f → made = traversal
  declared : ∀ v ∈ made, v.declared bindings = true
  argumentsBound : ∀ n, .postParse n ∈ made →
    ∃ bound, bindArgs n.keyword.spec n.elements n.span = .ok bound
  /-- A hook that raises or reports is the last one called, and compilation fails for its reason. -/
  failure : ∀ before v after e, made = before ++ v :: after → v.failure? bindings = some e →
    after = [] ∧ o.result = .error e
  /-- An error that a hook raised was raised by the last hook called. -/
  raised : ∀ e, o.result = .error (.hook e) →
    ∃ before v, made = before ++ [v] ∧ v.failure? bindings = some (.hook e)

/-- Among visits that all pass is none that fails. -/
theorem ParseVisit.not_failure_of_passes {bindArgs : ArgumentBinder} {bindings : Bindings}
    {made before after : List ParseVisit} {v : ParseVisit} {e : CompileError}
    (passed : ∀ w ∈ made, w.Passes bindArgs bindings) (hmade : made = before ++ v :: after) :
    v.failure? bindings ≠ some e := by
  intro hfailure
  have hquiet := (passed v (by simp [hmade])).quiet
  rw [hquiet] at hfailure
  cases hfailure

theorem Compiled.Follows.parseProtocol {bindArgs : ArgumentBinder} {bindings : Bindings}
    {traversal : List ParseVisit} {o : Compiled Fragment}
    (h : Compiled.Follows bindArgs bindings traversal o)
    (hdeclared : ∀ v ∈ traversal, v.declared bindings = true) :
    ∃ made, ParseProtocol bindArgs bindings traversal made o := by
  cases h with
  | done passed f =>
    exact ⟨traversal, {
      calls := rfl
      inOrder := List.prefix_rfl
      whole := fun _ _ => rfl
      declared := hdeclared
      argumentsBound := fun n hn => (passed _ hn).ready
      failure := fun before v after e hmade hfailure =>
        absurd hfailure (ParseVisit.not_failure_of_passes passed hmade)
      raised := nofun }⟩
  | rejected made passed later error =>
    have horder : made <+: made ++ later := List.prefix_append made later
    exact ⟨made, {
      calls := rfl
      inOrder := horder
      whole := nofun
      declared := fun v hv => hdeclared v (horder.subset hv)
      argumentsBound := fun n hn => (passed _ hn).ready
      failure := fun before v after e hmade hfailure =>
        absurd hfailure (ParseVisit.not_failure_of_passes passed hmade)
      raised := nofun }⟩
  | @failed made passed last error ready failure later =>
    have horder : made ++ [last] <+: made ++ last :: later := ⟨later, by simp⟩
    refine ⟨made ++ [last], {
      calls := rfl
      inOrder := horder
      whole := nofun
      declared := fun v hv => hdeclared v (horder.subset hv)
      argumentsBound := fun n hn => ?_
      failure := fun before v after e hmade hfailure => ?_
      raised := fun e he => ?_ }⟩
    · rcases List.mem_append.1 hn with hn | hn
      · exact (passed _ hn).ready
      · obtain rfl := List.mem_singleton.1 hn
        exact ready
    · obtain ⟨others, hpassed⟩ | ⟨others, rfl, hlast⟩ := append_eq_append_cons hmade
      · exact absurd hfailure (ParseVisit.not_failure_of_passes passed hpassed)
      · obtain ⟨-, hlast⟩ | ⟨-, hlast⟩ := List.append_eq_singleton_iff.1 hlast.symm
        · obtain ⟨rfl, rfl⟩ := List.cons.inj hlast
          obtain rfl := Option.some.inj (failure.symm.trans hfailure)
          exact ⟨rfl, rfl⟩
        · cases hlast
    · obtain rfl := Except.error.inj he
      exact ⟨made, last, rfl, failure⟩

/-- However arguments are bound and whatever the hooks do, the hooks called while a script compiles
are a prefix of its canonical traversal, and all of it if the script is accepted. The first hook
that raises or reports is the last one called and decides the outcome. Only hooks that are declared
are called, those after the arguments only if these were bound; and the bodies of the scope hooks
make no difference, so none of them is called. -/
theorem parseProtocol_compileScript (bindArgs : ArgumentBinder) (bindings : Bindings)
    (script : List Statement) :
    let o := compileScript bindArgs bindings script
    (∃ made, ParseProtocol bindArgs bindings (parseVisits bindings script) made o) ∧
      ∀ other, compileScript bindArgs (bindings.withScopeBodies other) script = o := by
  intro o
  refine ⟨(follows_compileScript script).parseProtocol fun _ => declared_of_mem_parseVisits,
    fun other => ?_⟩
  have hsame : ∀ n ∈ reachedInvocations script,
      bindings.SameParseHooks (bindings.withScopeBodies other) n.keyword :=
    fun n _ => bindings.sameParseHooks_withScopeBodies other n.keyword
  exact (compileScript_congr hsame (bindings.opensScope_withScopeBodies other)).symm

namespace Sample

/-- Code for the sample keywords in which suites are looked at first and last, and no check
passes. -/
def parsing : Bindings where
  entries := [
    (⟨0, [0]⟩, .of ⟨"Suite", fun _ => none, .ofList [.preParse, .semanticCheck], {}⟩),
    (⟨0, [0, 0]⟩, .of ⟨"Check", fun _ => none, .ofList [.postParse],
      { postParse := some fun node => .ok [⟨"not now", some node.span⟩] }⟩),
    (⟨0, [0, 1]⟩, .of ⟨"Setup", fun _ => none, .empty, {}⟩)]

/-- The first of two checks ends the traversal. -/
example :
    let o := compileScript bindArguments parsing (script none)
    (parseVisits parsing (script none)).map (fun v => (v.node.keyword.name, v.hook)) =
        [("Suite", .preParse), ("Check", .postParse), ("Check", .postParse),
          ("Suite", .semanticCheck)] ∧
      o.calls.length = 2 ∧
      o.result.map List.length = .error (.invocation
        ⟨"Check", .ofLine 4, .parseErrors [⟨"not now", some (.ofLine 4)⟩]⟩) := by
  decide +kernel

end Sample

end KeywordEngine
