import KeywordEngine.Proofs.Failure
import KeywordEngine.Proofs.Nesting
import KeywordEngine.Proofs.ParseProtocol

/-!
# Where compile errors point

A script that is rejected is rejected for one invocation in its tree, at a node of that invocation:
the invocation itself, an element after its name, an entry of its hashtable body or its block. The
reason tells which kind of node (`Rejection.site`).

* `Invocation.Faults`: an error that is due to an invocation.
* `Invocation.failsOnly_bindArguments`, `Invocation.failsOnly_planProperties`,
  `Invocation.failsOnly_checkNesting`: the checks of one invocation.
* `rejectsOnly_compileStatements`: by induction on the tree of statements.
* `exists_first_failure`: the statement at which a script fails.
* `faults_compileScript`: a whole script.
-/

namespace KeywordEngine

/-! ## Nodes -/

/-- The kinds of nodes at which an invocation may be at fault. -/
inductive Site where
  | invocation
  | element
  | entry
  | block
  deriving DecidableEq, Repr

/-- The kind of node that a rejection points to. -/
def Rejection.site : Rejection → Site
  | unknownParameter _ | duplicateParameter _ | parameterNotInSet _ _ | missingArgument _
  | tooManyPositionalArguments _ | parameterTypeMismatch _ _ => .element
  | nonStringKey _ | unknownProperty _ | duplicateProperty _ | propertyTypeMismatch _ _ => .entry
  | missingRequiredKeyword _ => .block
  | missingMandatoryParameter _ | missingMandatoryProperty _ | malformedBody _
  | keywordNotInScope _ | keywordUsedMoreThanOnce _ | unboundKeyword | parseErrors _ => .invocation

/-- The span of the block of an invocation; none without a block. -/
def Invocation.blockSpan? (n : Invocation) : Option Span :=
  match n.body with
  | some (.scriptBlock _ span) => some span
  | _ => none

/-- The spans of the nodes of one kind. -/
def Invocation.spans (n : Invocation) : Site → List Span
  | .invocation => [n.span]
  | .element => n.elements.map (·.span)
  | .entry => n.entries.map (·.span)
  | .block => n.blockSpan?.toList

/-- An error that is due to an invocation: it names the keyword and points to a node of the kind
that is to blame for its reason. -/
structure Invocation.Faults (n : Invocation) (e : InvocationError) : Prop where
  keyword : e.keyword = n.keyword.name
  span : e.span ∈ n.spans e.reason.site

/-- An error of a keyword at one of some nodes of one kind. -/
structure InvocationError.At (name : String) (site : Site) (spans : List Span)
    (e : InvocationError) : Prop where
  keyword : e.keyword = name
  site : e.reason.site = site
  span : e.span ∈ spans

namespace InvocationError.At

variable {name : String} {site : Site} {spans spans' : List Span} {e : InvocationError}

theorem mono (h : e.At name site spans) (hsub : spans ⊆ spans') : e.At name site spans' :=
  ⟨h.keyword, h.site, hsub h.span⟩

theorem faults {n : Invocation} (h : e.At n.keyword.name site spans) (hsub : spans ⊆ n.spans site) :
    n.Faults e where
  keyword := h.keyword
  span := by
    rw [h.site]
    exact hsub h.span

end InvocationError.At

theorem Invocation.faults_at_span {n : Invocation} {reason : Rejection}
    (h : reason.site = .invocation) : n.Faults ⟨n.keyword.name, n.span, reason⟩ where
  keyword := rfl
  span := by
    rw [h]
    exact List.mem_singleton_self n.span

/-- An invocation in the tree of statements is at fault. -/
def FaultAmong (l : List Statement) (e : InvocationError) : Prop :=
  ∃ n ∈ reachedInvocations l, n.Faults e

theorem FaultAmong.of_direct {l : List Statement} {e : InvocationError}
    (h : ∃ n ∈ directInvocations l, n.Faults e) : FaultAmong l e := by
  obtain ⟨n, hn, hfaults⟩ := h
  exact ⟨n, mem_reachedInvocations_of_direct hn, hfaults⟩

/-! ## Arguments -/

namespace Arguments

variable {k : KeywordSpec} {named before : List Named} {elements : List Element}

theorem failsOnly_readNamed :
    FailsOnly (InvocationError.At k.name .element (elements.map (·.span)))
      (readNamed k before elements) := by
  induction elements generalizing before with
  | nil => exact .ok before
  | cons element rest ih =>
    have hrest (before : List Named) :
        FailsOnly (InvocationError.At k.name .element ((element :: rest).map (·.span)))
          (readNamed k before rest) :=
      ih.mono fun e he => he.mono (List.subset_cons_self _ _)
    cases element with
    | positional argument span => exact hrest before
    | named name argument span =>
      rw [readNamed]
      split
      · exact .error ⟨rfl, rfl, List.mem_cons_self⟩
      · split
        · exact .error ⟨rfl, rfl, List.mem_cons_self⟩
        · exact hrest _

/-- The named elements stand where their elements do. -/
theorem spans_of_readNamed (h : readNamed k before elements = .ok named) :
    named.map (·.span) ⊆ before.map (·.span) ++ elements.map (·.span) := by
  induction elements generalizing before with
  | nil =>
    obtain rfl := Except.ok.inj h
    exact List.subset_append_left _ _
  | cons element rest ih =>
    cases element with
    | positional argument span =>
      refine List.Subset.trans (ih h) (List.append_subset.2 ⟨List.subset_append_left _ _, ?_⟩)
      exact List.Subset.trans (List.subset_cons_self _ _) (List.subset_append_right _ _)
    | named name argument span =>
      rw [readNamed] at h
      split at h
      · cases h
      · split at h
        · cases h
        · simpa [Element.span] using ih h

/-- The positional elements stand where their elements do. -/
theorem spans_positionals (elements : List Element) :
    (positionals elements).map (·.span) ⊆ elements.map (·.span) := by
  induction elements with
  | nil => exact List.Subset.refl _
  | cons element rest ih =>
    cases element with
    | named name argument span => exact List.Subset.trans ih (List.subset_cons_self _ _)
    | positional argument span => exact List.cons_subset_cons _ ih

theorem failsOnly_narrowSets {candidates : List String} :
    FailsOnly (InvocationError.At k.name .element (named.map (·.span)))
      (narrowSets k candidates named) := by
  induction named generalizing candidates with
  | nil => exact .ok candidates
  | cons n rest ih =>
    rw [narrowSets]
    split
    · exact .error ⟨rfl, rfl, List.mem_cons_self⟩
    · exact ih.mono fun e he => he.mono (List.subset_cons_self _ _)

theorem failsOnly_resolveSet :
    FailsOnly (InvocationError.At k.name .element (named.map (·.span))) (resolveSet k named) := by
  unfold resolveSet
  split
  · exact .ok allSets
  · exact failsOnly_narrowSets.map

theorem failsOnly_planFor {p : ParameterSpec} {argument : Expr} {span : Span} :
    FailsOnly (InvocationError.At k.name .element [span]) (planFor k p argument span) := by
  unfold planFor
  split
  · exact .ok _
  · exact .error ⟨rfl, rfl, List.mem_singleton_self span⟩

theorem failsOnly_planNamed {n : Named} :
    FailsOnly (InvocationError.At k.name .element [n.span]) (planNamed k n) := by
  unfold planNamed
  split
  · exact failsOnly_planFor
  · split
    · exact .ok _
    · exact .error ⟨rfl, rfl, List.mem_singleton_self n.span⟩

theorem failsOnly_planPositionals {slots : List ParameterSpec} {arguments : List Positional} :
    FailsOnly (InvocationError.At k.name .element (arguments.map (·.span)))
      (planPositionals k slots arguments) := by
  induction slots generalizing arguments with
  | nil =>
    rw [planPositionals]
    · exact .ok []
    · simp
  | cons p slots ih =>
    cases arguments with
    | nil => exact .ok []
    | cons a rest =>
      rw [planPositionals]
      refine (failsOnly_planFor.mono fun e he => he.mono ?_).bind fun plan _ => ?_
      · exact List.cons_subset_cons _ (List.nil_subset _)
      · refine (ih.mono fun e he => he.mono (List.subset_cons_self _ _)).bind fun plans _ => ?_
        exact .ok (plan :: plans)

end Arguments

open Arguments in
/-- Arguments fail at an element, or at the invocation where a mandatory one is missing. -/
theorem Invocation.failsOnly_bindArguments (n : Invocation) :
    FailsOnly n.Faults (bindArguments n.keyword.spec n.elements n.span) := by
  have helements {spans : List Span} (hsub : spans ⊆ n.spans .element)
      (e : InvocationError) (he : e.At n.keyword.name .element spans) : n.Faults e :=
    he.faults hsub
  unfold bindArguments
  refine (failsOnly_readNamed.mono (helements (List.Subset.refl _))).bind fun named hnamed => ?_
  have hspans : named.map (·.span) ⊆ n.elements.map (·.span) := spans_of_readNamed hnamed
  have hpositionals := spans_positionals n.elements
  refine (failsOnly_resolveSet.mono (helements hspans)).bind fun set _ => ?_
  refine (FailsOnly.mapM fun a ha => ?_).bind fun namedPlans _ => ?_
  · refine failsOnly_planNamed.mono (helements ?_)
    exact List.cons_subset.2 ⟨hspans (List.mem_map_of_mem ha), List.nil_subset _⟩
  simp only
  split
  · rename_i extra hextra
    have hspan := List.mem_map_of_mem (f := Positional.span) (List.mem_of_getElem? hextra)
    exact .error ⟨rfl, hpositionals hspan⟩
  · refine (failsOnly_planPositionals.mono (helements hpositionals)).bind fun plans _ => ?_
    split
    · exact .error (n.faults_at_span rfl)
    · exact .ok _

/-! ## Hashtable bodies -/

theorem failsOnly_planEntry {k : KeywordSpec} {before : List Plan} {entry : HashtableEntry} :
    FailsOnly (InvocationError.At k.name .entry [entry.span]) (planEntry k before entry) := by
  have hreject {reason : Rejection} (h : reason.site = .entry) :
      InvocationError.At k.name .entry [entry.span] ⟨k.name, entry.span, reason⟩ :=
    ⟨rfl, h, List.mem_singleton_self entry.span⟩
  unfold planEntry
  simp only
  split
  · exact .error (hreject rfl)
  · split
    · exact .error (hreject rfl)
    · split
      · exact .error (hreject rfl)
      · split
        · exact .ok _
        · exact .error (hreject rfl)

theorem failsOnly_planEntries {k : KeywordSpec} {before : List Plan}
    {entries : List HashtableEntry} :
    FailsOnly (InvocationError.At k.name .entry (entries.map (·.span)))
      (planEntries k before entries) := by
  induction entries generalizing before with
  | nil => exact .ok before
  | cons entry rest ih =>
    rw [planEntries]
    refine (failsOnly_planEntry.mono fun e he => he.mono ?_).bind fun plan _ => ?_
    · exact List.cons_subset_cons _ (List.nil_subset _)
    · exact ih.mono fun e he => he.mono (List.subset_cons_self _ _)

/-- A hashtable body fails at an entry, or at the invocation where a mandatory property is
missing. -/
theorem Invocation.failsOnly_planProperties (n : Invocation) :
    FailsOnly n.Faults (planProperties n.keyword.spec n.entries n.span) := by
  unfold planProperties
  have hentries (e : InvocationError) (he : e.At n.keyword.name .entry (n.spans .entry)) :
      n.Faults e := he.faults (List.Subset.refl _)
  refine (failsOnly_planEntries.mono hentries).bind fun plans _ => ?_
  split
  · exact .error (n.faults_at_span rfl)
  · exact .ok plans

/-! ## Blocks -/

theorem failsOnly_checkStatements {parent : Keyword} {used : List String} {l : List Statement} :
    FailsOnly (fun e => ∃ n ∈ directInvocations l, n.Faults e) (checkStatements parent used l) := by
  induction l generalizing used with
  | nil => exact .ok used
  | cons s rest ih =>
    cases s with
    | assign target value span => exact ih
    | evaluate e span => exact ih
    | invoke n =>
      have hrest (used : List String) :
          FailsOnly (fun e => ∃ m ∈ directInvocations (.invoke n :: rest), m.Faults e)
            (checkStatements parent used rest) :=
        ih.mono fun e ⟨m, hm, he⟩ => ⟨m, List.mem_cons_of_mem n hm, he⟩
      rw [checkStatements]
      split
      · split
        · exact .error ⟨n, List.mem_cons_self, n.faults_at_span rfl⟩
        · exact hrest _
      · split
        · exact .error ⟨n, List.mem_cons_self, n.faults_at_span rfl⟩
        · exact hrest _

/-- A block fails at an invocation that stands directly in it, or at itself where a required child
is missing. -/
theorem Invocation.failsOnly_checkNesting {n : Invocation} {span : Span}
    (hbody : n.body = some (.scriptBlock n.block span)) :
    FailsOnly (fun e => n.Faults e ∨ FaultAmong n.block e)
      (checkNesting n.keyword n.block span) := by
  have hspan : n.spans .block = [span] := by
    simp [spans, blockSpan?, hbody]
  unfold checkNesting
  refine (failsOnly_checkStatements.mono fun e he => .inr (.of_direct he)).bind fun used _ => ?_
  split
  · exact .error (.inl ⟨rfl, hspan ▸ List.mem_singleton_self span⟩)
  · exact .ok ()

/-! ## Compilation -/

section Scripts

variable {bindings : Bindings}

/-- A hook rejects the invocation for which it is called. -/
theorem rejectsOnly_visit {r : RuntimeInfo} {v : ParseVisit} :
    Compiled.RejectsOnly v.node.Faults (r.visit v) := by
  unfold RuntimeInfo.visit
  split
  · exact .ofHook fun _ => v.node.faults_at_span rfl
  · exact .pure ()

/-- A body is rejected for the invocation or for one in its block. -/
theorem rejectsOnly_compileBody {n : Invocation} {r : RuntimeInfo} {instantiate : Instruction}
    (hblock : Compiled.RejectsOnly (FaultAmong n.block)
      (compileStatements bindArguments bindings n.block)) :
    Compiled.RejectsOnly (fun e => n.Faults e ∨ FaultAmong n.block e)
      (n.compileBody bindArguments bindings r instantiate) := by
  cases hfits : n.bodyFits with
  | false =>
    rw [compileBody_of_not_bodyFits _ _ hfits]
    exact .reject (.inl (n.faults_at_span rfl))
  | true =>
    obtain ⟨hmode, hbody⟩ | ⟨hmode, hbody⟩ | ⟨hmode, span, hbody⟩ := Invocation.bodyFits_iff.1 hfits
    · rw [compileBody_of_command _ _ hmode hbody]
      exact .pure _
    · rw [compileBody_of_hashtable _ _ hmode hbody]
      exact .bind (.ofCheck (n.failsOnly_planProperties.mono fun e => .inl)) fun plans => .pure _
    · rw [compileBody_of_scriptBlock _ _ hmode hbody]
      refine .bind (.ofCheck (Invocation.failsOnly_checkNesting hbody)) fun _ => ?_
      exact .bind (hblock.mono fun e => .inr) fun inner => .pure _

theorem rejectsOnly_compileInvocation {n : Invocation}
    (hblock : Compiled.RejectsOnly (FaultAmong n.block)
      (compileStatements bindArguments bindings n.block)) :
    Compiled.RejectsOnly (fun e => n.Faults e ∨ FaultAmong n.block e)
      (compileInvocation bindArguments bindings n) := by
  cases hr : bindings.runtime? n.keyword with
  | none =>
    rw [compileInvocation_of_unbound _ _ hr]
    exact .reject (.inl (n.faults_at_span rfl))
  | some r =>
    have hvisit {v : ParseVisit} (hv : v.node = n) :
        Compiled.RejectsOnly (fun e => n.Faults e ∨ FaultAmong n.block e) (r.visit v) :=
      hv ▸ rejectsOnly_visit.mono fun e => .inl
    have harguments := n.failsOnly_bindArguments.mono fun e => Or.inl (b := FaultAmong n.block e)
    rw [compileInvocation_eq_visits hr]
    refine (hvisit rfl).bind fun _ => (Compiled.RejectsOnly.ofCheck harguments).bind fun bound => ?_
    refine (hvisit rfl).bind fun _ => (rejectsOnly_compileBody hblock).bind fun code => ?_
    exact (hvisit rfl).bind fun _ => .pure code

theorem rejectsOnly_append {P : InvocationError → Prop} {x y : Compiled Fragment}
    (hx : Compiled.RejectsOnly P x) (hy : Compiled.RejectsOnly P y) :
    Compiled.RejectsOnly P (do return (← x) ++ (← y)) :=
  hx.bind fun _ => hy.bind fun _ => .pure _

/-- Statements are rejected for an invocation in their tree. -/
theorem rejectsOnly_compileStatements (l : List Statement) :
    Compiled.RejectsOnly (FaultAmong l) (compileStatements bindArguments bindings l) := by
  induction l using statements_induction with
  | nil =>
    rw [compileStatements]
    exact .pure []
  | assign target value span rest ih =>
    unfold FaultAmong at ih ⊢
    rw [reachedInvocations_assign, compileStatements_cons, compileStatement]
    exact rejectsOnly_append (.pure _) ih
  | evaluate e span rest ih =>
    unfold FaultAmong at ih ⊢
    rw [reachedInvocations_evaluate, compileStatements_cons, compileStatement]
    exact rejectsOnly_append (.pure _) ih
  | invoke n rest ihblock ih =>
    have hsub : ∀ m, m ∈ n :: reachedInvocations n.block ∨ m ∈ reachedInvocations rest →
        m ∈ reachedInvocations (.invoke n :: rest) := by
      simp [or_assoc]
    rw [compileStatements_cons, compileStatement]
    refine rejectsOnly_append ((rejectsOnly_compileInvocation ihblock).mono fun e he => ?_)
      (ih.mono fun e he => ?_)
    · obtain he | ⟨m, hm, he⟩ := he
      · exact ⟨n, hsub n (.inl List.mem_cons_self), he⟩
      · exact ⟨m, hsub m (.inl (List.mem_cons_of_mem n hm)), he⟩
    · obtain ⟨m, hm, he⟩ := he
      exact ⟨m, hsub m (.inr hm), he⟩

/-- A statement outside every block is rejected for an invocation in its tree. -/
theorem rejectsOnly_compileTopStatement (s : Statement) :
    Compiled.RejectsOnly (FaultAmong [s]) (compileTopStatement bindArguments bindings s) := by
  cases s with
  | assign target value span =>
    simp only [compileTopStatement, compileStatement]
    exact .pure _
  | evaluate e span =>
    simp only [compileTopStatement, compileStatement]
    exact .pure _
  | invoke n =>
    have hmem : ∀ m, m = n ∨ m ∈ reachedInvocations n.block →
        m ∈ reachedInvocations [.invoke n] := by
      simp
    rw [compileTopStatement]
    split
    · exact .reject ⟨n, hmem n (.inl rfl), n.faults_at_span rfl⟩
    · have hblock := @rejectsOnly_compileStatements bindings n.block
      refine (rejectsOnly_compileInvocation hblock).mono fun e he => ?_
      obtain he | ⟨m, hm, he⟩ := he
      · exact ⟨n, hmem n (.inl rfl), he⟩
      · exact ⟨m, hmem m (.inr hm), he⟩

end Scripts

/-! ## The statement that fails -/

section Scripts

variable {bindArgs : ArgumentBinder} {bindings : Bindings}

theorem compileScript_singleton (s : Statement) :
    compileScript bindArgs bindings [s] = compileTopStatement bindArgs bindings s := by
  rw [compileScript_cons, compileScript]
  show (do
    let first ← compileTopStatement bindArgs bindings s
    let others ← pure []
    return first ++ others) = _
  simp only [pure_bind, List.append_nil, bind_pure]

/-- A script fails at the first of its statements that fails by itself, as that one does, and what
follows it does not matter. -/
theorem exists_first_failure {script : List Statement} {e : CompileError}
    (h : (compileScript bindArgs bindings script).result = .error e) :
    ∃ before s after, script = before ++ s :: after ∧
      (∀ t ∈ before, (compileScript bindArgs bindings [t]).Succeeds) ∧
      (compileScript bindArgs bindings [s]).result = .error e ∧
      ∀ later, compileScript bindArgs bindings (before ++ s :: later) =
        compileScript bindArgs bindings script := by
  induction script with
  | nil => cases h
  | cons s rest ih =>
    cases hs : (compileTopStatement bindArgs bindings s).result with
    | error e' =>
      have hwhole (later : List Statement) : compileScript bindArgs bindings (s :: later) =
          ⟨(compileTopStatement bindArgs bindings s).calls, .error e'⟩ := by
        rw [compileScript_cons, Compiled.bind_of_error hs]
      rw [hwhole] at h
      obtain rfl := Except.error.inj h
      refine ⟨[], s, rest, rfl, List.forall_mem_nil _, ?_, fun later => ?_⟩
      · rw [compileScript_singleton, hs]
      · rw [List.nil_append, hwhole, hwhole]
    | ok first =>
      have hrest : (compileScript bindArgs bindings rest).result = .error e := by
        rw [compileScript_cons, Compiled.bind_of_ok hs] at h
        cases hothers : (compileScript bindArgs bindings rest).result with
        | error e' =>
          rw [Compiled.bind_of_error hothers] at h
          exact h
        | ok others =>
          rw [Compiled.bind_of_ok hothers] at h
          cases h
      obtain ⟨before, t, after, rfl, hbefore, ht, hlater⟩ := ih hrest
      refine ⟨s :: before, t, after, rfl, List.forall_mem_cons.2 ⟨?_, hbefore⟩, ht, fun later => ?_⟩
      · rw [compileScript_singleton]
        exact ⟨first, hs⟩
      · rw [List.cons_append, compileScript_cons, hlater, ← compileScript_cons]

end Scripts

/-- A rejected script is rejected for its first statement that is rejected by itself, and in the
same way: the statements before it are accepted each on its own, and with any others after it the
outcome is the same. In the tree of that statement there is an invocation at fault: the error names
its keyword and points to it or to one of its elements, one of the entries of its hashtable body or
its block, as the reason demands. -/
theorem faults_compileScript {bindings : Bindings} {script : List Statement} {e : InvocationError}
    (h : (compileScript bindArguments bindings script).result = .error (.invocation e)) :
    ∃ before s after, script = before ++ s :: after ∧
      (∀ t ∈ before, ∃ f, (compileScript bindArguments bindings [t]).result = .ok f) ∧
      (compileScript bindArguments bindings [s]).result = .error (.invocation e) ∧
      (∀ later, compileScript bindArguments bindings (before ++ s :: later) =
        compileScript bindArguments bindings script) ∧
      ∃ n ∈ reachedInvocations [s],
        e.keyword = n.keyword.name ∧ e.span ∈ n.spans e.reason.site := by
  obtain ⟨before, s, after, hscript, hbefore, hs, hlater⟩ := exists_first_failure h
  refine ⟨before, s, after, hscript, hbefore, hs, hlater, ?_⟩
  rw [compileScript_singleton] at hs
  obtain ⟨n, hn, hfaults⟩ := rejectsOnly_compileTopStatement s e hs
  exact ⟨n, hn, hfaults.keyword, hfaults.span⟩

/-- Of a letter with one address and one with two, the second is rejected for its second address. -/
theorem faults_compileScript_letters :
    (compileScript bindArguments Letter.code (Letter.script 1 ++ Letter.script 2)).result =
        .error (.invocation ⟨"Address", .ofLine 2, .keywordUsedMoreThanOnce "Address"⟩) ∧
      ∃ before s after, Letter.script 1 ++ Letter.script 2 = before ++ s :: after ∧
        (∀ t ∈ before, ∃ f, (compileScript bindArguments Letter.code [t]).result = .ok f) ∧
        ∃ n ∈ reachedInvocations [s], n.keyword.name = "Address" ∧ n.span = .ofLine 2 := by
  have herror : (compileScript bindArguments Letter.code
      (Letter.script 1 ++ Letter.script 2)).result =
        .error (.invocation ⟨"Address", .ofLine 2, .keywordUsedMoreThanOnce "Address"⟩) := by
    with_unfolding_all rfl
  obtain ⟨before, s, after, hscript, hbefore, -, -, n, hn, hkeyword, hspan⟩ :=
    faults_compileScript herror
  exact ⟨herror, before, s, after, hscript, hbefore, n, hn, hkeyword.symm,
    (List.mem_singleton.1 hspan).symm⟩

end KeywordEngine
