import KeywordEngine.Proofs.Addressing
import KeywordEngine.Proofs.Simulation
import KeywordEngine.Proofs.Spelling

/-!
# Case-insensitivity

Scripts that differ only in the case of the names that they spell are accepted or rejected alike,
and do the same. Names are compared in many places, some against declarations and some against each
other; a folded script passes each of them as the script does, and fails where it fails.

* `FoldsTo`: outcomes of a check of something and of its folded form.
* `bindArguments_folded`, `planProperties_folded`, `checkNesting_folded`: the checks of an
  invocation.
* `Compiled.FoldsTo`: the same for outcomes of compilation.
* `compileScript_caseInsensitive`: two scripts with the same folded form.
-/

namespace KeywordEngine

/-! ## Errors -/

/-- The reason with the name that it quotes from the script in small letters. -/
def Rejection.folded : Rejection → Rejection
  | unknownParameter name => unknownParameter (Text.fold name)
  | nonStringKey key => nonStringKey (Text.fold key)
  | unknownProperty name => unknownProperty (Text.fold name)
  | reason => reason

/-- The error with the name that it quotes from the script in small letters. -/
def InvocationError.folded (e : InvocationError) : InvocationError :=
  { e with reason := e.reason.folded }

/-- The error with the name that it quotes from the script in small letters. -/
def CompileError.folded : CompileError → CompileError
  | invocation e => invocation e.folded
  | hook e => hook e

/-! ## Outcomes of checks -/

/-- The outcome of a check and that of its folded form: results that `f` relates, or errors that
differ only in the case of the name that they quote. -/
inductive FoldsTo {α β : Type} (f : α → β) :
    Except InvocationError α → Except InvocationError β → Prop
  | ok (a : α) : FoldsTo f (.ok a) (.ok (f a))
  | error {e e' : InvocationError} (same : e.folded = e'.folded) : FoldsTo f (.error e) (.error e')

namespace FoldsTo

variable {α β γ δ : Type} {f : α → β} {g : γ → δ} {x : Except InvocationError α}
  {y : Except InvocationError β}

theorem throw (e : InvocationError) : FoldsTo f (.error e) (.error e) := .error rfl

theorem bind (h : FoldsTo f x y) {k : α → Except InvocationError γ}
    {l : β → Except InvocationError δ} (hkl : ∀ a, FoldsTo g (k a) (l (f a))) :
    FoldsTo g (x >>= k) (y >>= l) := by
  cases h with
  | ok a => exact hkl a
  | error same => exact .error same

/-- What comes out the same is related. -/
theorem of_eq {x y : Except InvocationError α} (h : x = y) : FoldsTo id x y := by
  subst h
  cases x with
  | ok a => exact .ok a
  | error e => exact .throw e

/-- Going through a folded list. -/
theorem mapM {h : γ → δ} {k : γ → Except InvocationError α} {l : δ → Except InvocationError β}
    (hkl : ∀ a, FoldsTo f (k a) (l (h a))) (items : List γ) :
    FoldsTo (List.map f) (items.mapM k) ((items.map h).mapM l) := by
  induction items with
  | nil => exact .ok []
  | cons a rest ih =>
    rw [List.map_cons, List.mapM_cons, List.mapM_cons]
    exact (hkl a).bind fun b => ih.bind fun bs => .ok (b :: bs)

end FoldsTo

/-! ## Arguments -/

namespace Arguments

variable {k : KeywordSpec}

/-- A named element with the names in its argument in small letters. -/
def Named.folded (n : Named) : Named := { n with argument := foldedOption n.argument }

/-- A positional element with the names in its argument in small letters. -/
def Positional.folded (p : Positional) : Positional := { p with argument := p.argument.folded }

theorem positionals_folded (elements : List Element) :
    positionals (foldedElements elements) = (positionals elements).map (·.folded) := by
  induction elements with
  | nil => rfl
  | cons e rest ih =>
    cases e with
    | named name argument span => simpa only [foldedElements, Element.folded, positionals]
    | positional argument span =>
      simp only [foldedElements, Element.folded, positionals, ih, List.map_cons]
      rfl

theorem any_parameter_folded (named : List Named) (p : ParameterSpec → Bool) :
    ((named.map (·.folded)).any fun n => p n.parameter) = named.any fun n => p n.parameter := by
  rw [List.any_map]
  rfl

theorem readNamed_folded (before : List Named) (elements : List Element) :
    FoldsTo (List.map (·.folded)) (readNamed k before elements)
      (readNamed k (before.map (·.folded)) (foldedElements elements)) := by
  induction elements generalizing before with
  | nil => exact .ok before
  | cons e rest ih =>
    cases e with
    | positional argument span => exact ih before
    | named name argument span =>
      have hparameter : k.parameter? (Text.fold name) = k.parameter? name :=
        KeywordSpec.parameter?_eq_of_fold_eq (Text.fold_fold name)
      simp only [foldedElements, Element.folded, readNamed, hparameter]
      cases hp : k.parameter? name with
      | none =>
        refine .error ?_
        simp only [InvocationError.folded, Rejection.folded, Text.fold_fold]
      | some p =>
        simp only [any_parameter_folded before (·.name == p.name)]
        split
        · exact .throw _
        · have hnext := ih (before ++ [⟨p, argument, span⟩])
          rw [List.map_append] at hnext
          exact hnext

theorem narrowSets_folded (candidates : List String) (named : List Named) :
    narrowSets k candidates (named.map (·.folded)) = narrowSets k candidates named := by
  induction named generalizing candidates with
  | nil => rfl
  | cons n rest ih =>
    simp only [List.map_cons, narrowSets, ih]
    rfl

theorem resolveSet_folded (named : List Named) :
    resolveSet k (named.map (·.folded)) = resolveSet k named := by
  unfold resolveSet
  simp only [narrowSets_folded]

theorem slots_folded (named : List Named) (set : String) :
    slots k (named.map (·.folded)) set = slots k named set := by
  unfold slots
  simp only [fun p : ParameterSpec => any_parameter_folded named (·.name == p.name)]

theorem planFor_folded (p : ParameterSpec) (e : Expr) (span : Span) :
    FoldsTo (·.folded) (planFor k p e span) (planFor k p e.folded span) := by
  unfold planFor
  rw [Operand.plan_folded]
  cases Operand.plan e p.constraint with
  | ok operand => exact .ok _
  | error error => exact .throw _

theorem planNamed_folded (n : Named) :
    FoldsTo (·.folded) (planNamed k n) (planNamed k n.folded) := by
  obtain ⟨p, argument, span⟩ := n
  cases argument with
  | some e => exact planFor_folded p e span
  | none =>
    show FoldsTo _ (planNamed k ⟨p, none, span⟩) (planNamed k ⟨p, none, span⟩)
    simp only [planNamed]
    split
    · exact .ok _
    · exact .throw _

theorem planPositionals_folded (slots : List ParameterSpec) (elements : List Positional) :
    FoldsTo (List.map (·.folded)) (planPositionals k slots elements)
      (planPositionals k slots (elements.map (·.folded))) := by
  induction slots generalizing elements with
  | nil => exact .ok []
  | cons p rest ih =>
    cases elements with
    | nil => exact .ok []
    | cons e others =>
      exact (planFor_folded p e.argument e.span).bind fun plan =>
        (ih others).bind fun plans => .ok (plan :: plans)

theorem missing?_folded (set : String) (plans : List Plan) :
    missing? k set (plans.map (·.folded)) = missing? k set plans := by
  unfold missing?
  simp only [any_target_folded]

end Arguments

/-- Bound arguments with the names in their plans in small letters. -/
def BoundArguments.folded (bound : BoundArguments) : BoundArguments :=
  { bound with arguments := bound.arguments.map (·.folded) }

open Arguments in
theorem bindArguments_folded (k : KeywordSpec) (elements : List Element) (span : Span) :
    FoldsTo (·.folded) (bindArguments k elements span)
      (bindArguments k (foldedElements elements) span) := by
  unfold bindArguments
  refine (readNamed_folded [] elements).bind fun named => ?_
  refine (FoldsTo.of_eq (resolveSet_folded named).symm).bind fun set => ?_
  refine (FoldsTo.mapM planNamed_folded named).bind fun plans => ?_
  simp only [id, positionals_folded, slots_folded, List.getElem?_map, List.length_map]
  cases (positionals elements)[(slots k named set).length]? with
  | some extra => exact .throw _
  | none =>
    refine (planPositionals_folded _ _).bind fun others => ?_
    simp only [← List.map_append, missing?_folded]
    cases missing? k set (plans ++ others) with
    | some p => exact .throw _
    | none => exact .ok _

/-! ## Hashtable bodies -/

section Properties

variable {k : KeywordSpec}

theorem fold_describeKey (key : Expr) :
    Text.fold (describeKey (foldedKey key.folded)) = Text.fold (describeKey key) := by
  cases key with
  | literal v =>
    cases v with
    | string s =>
      simp only [Expr.folded, foldedKey, describeKey, Value.text, Value.kindName,
        Text.fold_append, Text.fold_fold]
    | _ => rfl
  | readVariable name =>
    simp only [Expr.folded, foldedKey, describeKey, Text.fold_append, Text.fold_fold]
  | _ => rfl

theorem literalKey?_folded (key : Expr) :
    literalKey? (foldedKey key.folded) = (literalKey? key).map Text.fold := by
  cases key with
  | literal v => cases v <;> rfl
  | _ => rfl

theorem planEntry_folded (before : List Plan) (entry : HashtableEntry) :
    FoldsTo (·.folded) (planEntry k before entry)
      (planEntry k (before.map (·.folded)) entry.folded.withFoldedKey) := by
  simp only [planEntry, HashtableEntry.withFoldedKey, HashtableEntry.key_folded,
    HashtableEntry.value_folded, HashtableEntry.span_folded, literalKey?_folded]
  cases literalKey? entry.key with
  | none =>
    refine .error ?_
    simp only [InvocationError.folded, Rejection.folded, fold_describeKey]
  | some key =>
    have hproperty : k.property? (Text.fold key) = k.property? key :=
      KeywordSpec.property?_eq_of_fold_eq (Text.fold_fold key)
    simp only [Option.map_some, hproperty]
    cases k.property? key with
    | none =>
      refine .error ?_
      simp only [InvocationError.folded, Rejection.folded, Text.fold_fold]
    | some p =>
      simp only [any_target_folded, Operand.plan_folded]
      cases before.any (·.target == p.name) with
      | true => exact .throw _
      | false =>
        cases Operand.plan entry.value p.constraint with
        | ok operand => exact .ok _
        | error error => exact .throw _

theorem planEntries_folded (before : List Plan) (entries : List HashtableEntry) :
    FoldsTo (List.map (·.folded)) (planEntries k before entries)
      (planEntries k (before.map (·.folded)) (entries.map (·.folded.withFoldedKey))) := by
  induction entries generalizing before with
  | nil => exact .ok before
  | cons entry rest ih =>
    refine (planEntry_folded before entry).bind fun plan => ?_
    have hnext := ih (before ++ [plan])
    rw [List.map_append] at hnext
    exact hnext

theorem planProperties_folded (entries : List HashtableEntry) (span : Span) :
    FoldsTo (List.map (·.folded)) (planProperties k entries span)
      (planProperties k (entries.map (·.folded.withFoldedKey)) span) := by
  unfold planProperties
  refine (planEntries_folded [] entries).bind fun plans => ?_
  simp only [any_target_folded]
  split
  · exact .throw _
  · exact .ok _

end Properties

/-! ## Blocks -/

theorem checkStatements_folded (parent : Keyword) (used : List String) (l : List Statement) :
    checkStatements parent used (foldedStatements l) = checkStatements parent used l := by
  induction l generalizing used with
  | nil => rfl
  | cons s rest ih =>
    cases s with
    | invoke node =>
      simp only [foldedStatements, Statement.folded, checkStatements, Invocation.keyword_folded,
        Invocation.span_folded, ih]
    | assign target value span => exact ih used
    | evaluate e span => exact ih used

theorem checkNesting_folded (parent : Keyword) (l : List Statement) (span : Span) :
    checkNesting parent (foldedStatements l) span = checkNesting parent l span := by
  unfold checkNesting
  rw [checkStatements_folded]

/-! ## Outcomes of compilation -/

/-- The call with the names in the invocation that the hook was shown in small letters. -/
def ParseCall.folded : ParseCall → ParseCall
  | preParse keyword => preParse keyword
  | postParse node => postParse node.folded
  | semanticCheck node => semanticCheck node.folded

/-- The outcome of compilation and that of its folded form: calls of hooks that were shown the
folded form of what they were shown before, and results that `f` relates, or errors that differ only
in the case of the name that they quote. -/
inductive Compiled.FoldsTo {α β : Type} (f : α → β) : Compiled α → Compiled β → Prop
  | ok (calls : List ParseCall) (a : α) :
      FoldsTo f ⟨calls, .ok a⟩ ⟨calls.map (·.folded), .ok (f a)⟩
  | error (calls : List ParseCall) {e e' : CompileError} (same : e.folded = e'.folded) :
      FoldsTo f ⟨calls, .error e⟩ ⟨calls.map (·.folded), .error e'⟩

namespace Compiled.FoldsTo

variable {α β γ δ : Type} {f : α → β} {g : γ → δ} {x : Compiled α} {y : Compiled β}

theorem pure (a : α) : FoldsTo f (Pure.pure a) (Pure.pure (f a)) := .ok [] a

theorem reject (keyword : String) (span : Span) (reason : Rejection) :
    FoldsTo f (.reject keyword span reason) (.reject keyword span reason) := .error [] rfl

theorem bind (h : FoldsTo f x y) {k : α → Compiled γ} {l : β → Compiled δ}
    (hkl : ∀ a, FoldsTo g (k a) (l (f a))) : FoldsTo g (x >>= k) (y >>= l) := by
  cases h with
  | error calls same => exact .error calls same
  | ok calls a =>
    show FoldsTo g ⟨calls ++ (k a).calls, (k a).result⟩
      ⟨calls.map (·.folded) ++ (l (f a)).calls, (l (f a)).result⟩
    have hnext := hkl a
    revert hnext
    generalize k a = next
    generalize l (f a) = next'
    rintro (⟨others, b⟩ | ⟨others, same⟩)
    · rw [← List.map_append]
      exact .ok _ b
    · rw [← List.map_append]
      exact .error _ same

theorem ofCheck {x : Except InvocationError α} {y : Except InvocationError β}
    (h : KeywordEngine.FoldsTo f x y) : FoldsTo f (.ofCheck x) (.ofCheck y) := by
  cases h with
  | ok a => exact .ok [] a
  | error same => exact .error [] (congrArg CompileError.invocation same)

/-- A hook that, if it is declared, is shown the folded form of what it was shown before and answers
the same. -/
theorem hook (n : Invocation) (call : ParseCall) {declared : Bool}
    {outcome outcome' : Except HookError (List Diagnostic)}
    (h : declared = true → outcome' = outcome) :
    FoldsTo id (if declared then .ofHook call n.keyword.name n.span outcome else .pure ())
      (if declared then .ofHook call.folded n.folded.keyword.name n.folded.span outcome'
        else .pure ()) := by
  rw [n.keyword_folded, n.span_folded]
  cases declared with
  | false => exact .ok [] ()
  | true =>
    rw [h rfl]
    show FoldsTo id (.ofHook call n.keyword.name n.span outcome)
      (.ofHook call.folded n.keyword.name n.span outcome)
    unfold Compiled.ofHook
    cases outcome with
    | error e => exact .error [call] rfl
    | ok diagnostics =>
      cases diagnostics with
      | nil => exact .ok [call] ()
      | cons d rest => exact .error [call] rfl

theorem calls_eq (h : FoldsTo f x y) : y.calls = x.calls.map (·.folded) := by
  cases h <;> rfl

theorem result (h : FoldsTo f x y) :
    (∃ a, x.result = .ok a ∧ y.result = .ok (f a)) ∨
      ∃ e e', x.result = .error e ∧ y.result = .error e' ∧ e.folded = e'.folded := by
  cases h with
  | ok calls a => exact .inl ⟨a, rfl, rfl⟩
  | error calls same => exact .inr ⟨_, _, rfl, rfl, same⟩

/-- What outcomes of the same folded form have in common. -/
theorem results {x' : Compiled α} (h : FoldsTo f x y) (h' : FoldsTo f x' y) :
    (∃ e e', x.result = .error e ∧ x'.result = .error e' ∧ e.folded = e'.folded) ∨
      ∃ a a', x.result = .ok a ∧ x'.result = .ok a' ∧ f a = f a' := by
  obtain ⟨a, ha, hy⟩ | ⟨e, e₁, he, hy, hsame⟩ := h.result
  · obtain ⟨a', ha', hy'⟩ | ⟨e', e₂, -, hy', -⟩ := h'.result
    · exact .inr ⟨a, a', ha, ha', Except.ok.inj (hy.symm.trans hy')⟩
    · cases hy.symm.trans hy'
  · obtain ⟨a', -, hy'⟩ | ⟨e', e₂, he', hy', hsame'⟩ := h'.result
    · cases hy.symm.trans hy'
    · obtain rfl := Except.error.inj (hy.symm.trans hy')
      exact .inl ⟨e, e', he, he', hsame.trans hsame'.symm⟩

end Compiled.FoldsTo

/-! ## Compilation -/

/-- Parse hooks that answer the same for invocations that differ only in the case of names. -/
structure RuntimeInfo.IgnoresCase (r : RuntimeInfo) : Prop where
  postParse : r.hooks.contains .postParse = true → ∀ n n' : Invocation, n.folded = n'.folded →
    r.implementation.postParse n = r.implementation.postParse n'
  semanticCheck : r.hooks.contains .semanticCheck = true →
    ∀ n n' : Invocation, n.folded = n'.folded →
      r.implementation.semanticCheck n = r.implementation.semanticCheck n'

namespace RuntimeInfo

variable {r : RuntimeInfo}

theorem runPreParse_folded (n : Invocation) :
    Compiled.FoldsTo id (r.runPreParse n) (r.runPreParse n.folded) := by
  obtain ⟨keyword, elements, body, span⟩ := n
  exact .hook ⟨keyword, elements, body, span⟩ (.preParse keyword) fun _ => rfl

theorem IgnoresCase.runPostParse_folded (h : r.IgnoresCase) (n : Invocation) :
    Compiled.FoldsTo id (r.runPostParse n) (r.runPostParse n.folded) :=
  .hook n (.postParse n) fun hdeclared => h.postParse hdeclared n.folded n n.folded_folded

theorem IgnoresCase.runSemanticCheck_folded (h : r.IgnoresCase) (n : Invocation) :
    Compiled.FoldsTo id (r.runSemanticCheck n) (r.runSemanticCheck n.folded) :=
  .hook n (.semanticCheck n) fun hdeclared => h.semanticCheck hdeclared n.folded n n.folded_folded

end RuntimeInfo

theorem withScope_folded (r : RuntimeInfo) (start : List Instruction) (body : Fragment) :
    Compiled.FoldsTo Fragment.folded (pure (withScope r start body))
      (pure (withScope r (start.map (·.folded)) (Fragment.folded body))) := by
  have hscope : withScope r (start.map (·.folded)) (Fragment.folded body) =
      (withScope r start body).folded := by
    unfold withScope
    split
    · simp [Fragment.folded, Instruction.folded]
    · rfl
  rw [hscope]
  exact .pure _

section Scripts

variable {bindings : Bindings}

theorem Invocation.bodyFits_folded (n : Invocation) : n.folded.bodyFits = n.bodyFits := by
  unfold bodyFits
  rw [n.keyword_folded, n.body_folded]
  cases n.body with
  | none => rfl
  | some e => cases n.keyword.spec.body <;> cases e <;> rfl

theorem compileBody_folded {r : RuntimeInfo} (i : Instruction) {n : Invocation}
    (hblock : Compiled.FoldsTo Fragment.folded (compileStatements bindArguments bindings n.block)
      (compileStatements bindArguments bindings (foldedStatements n.block))) :
    Compiled.FoldsTo Fragment.folded (n.compileBody bindArguments bindings r i)
      (n.folded.compileBody bindArguments bindings r i.folded) := by
  have hmode' : n.folded.keyword.spec.body = n.keyword.spec.body := by rw [n.keyword_folded]
  have hbody' := n.body_folded
  cases hfits : n.bodyFits with
  | false =>
    have hfits' : n.folded.bodyFits = false := by rw [n.bodyFits_folded, hfits]
    rw [compileBody_of_not_bodyFits _ _ hfits, compileBody_of_not_bodyFits _ _ hfits',
      n.keyword_folded, n.span_folded]
    exact .reject _ _ _
  | true =>
    obtain ⟨hmode, hbody⟩ | ⟨hmode, hbody⟩ | ⟨hmode, span, hbody⟩ := Invocation.bodyFits_iff.1 hfits
    · rw [hbody] at hbody'
      rw [compileBody_of_command _ _ hmode hbody,
        compileBody_of_command _ _ (hmode'.trans hmode) hbody']
      exact withScope_folded r [i] []
    · rw [hbody] at hbody'
      simp only [foldedOption, Option.map_some, Expr.folded, foldedKeys, foldedEntries_eq,
        List.map_map] at hbody'
      rw [compileBody_of_hashtable _ _ hmode hbody,
        compileBody_of_hashtable _ _ (hmode'.trans hmode) hbody', n.keyword_folded, n.span_folded]
      refine (Compiled.FoldsTo.ofCheck (planProperties_folded _ _)).bind fun plans => ?_
      exact withScope_folded r [i, .assignProperties plans] []
    · rw [hbody] at hbody'
      simp only [foldedOption, Option.map_some, Expr.folded, foldedKeys] at hbody'
      rw [compileBody_of_scriptBlock _ _ hmode hbody,
        compileBody_of_scriptBlock _ _ (hmode'.trans hmode) hbody', n.keyword_folded,
        checkNesting_folded]
      refine (Compiled.FoldsTo.ofCheck (.of_eq rfl)).bind fun _ => ?_
      exact hblock.bind fun inner => withScope_folded r [i] inner

theorem compileInvocation_folded {n : Invocation}
    (h : ∀ r, bindings.runtime? n.keyword = some r → r.IgnoresCase)
    (hblock : Compiled.FoldsTo Fragment.folded (compileStatements bindArguments bindings n.block)
      (compileStatements bindArguments bindings (foldedStatements n.block))) :
    Compiled.FoldsTo Fragment.folded (compileInvocation bindArguments bindings n)
      (compileInvocation bindArguments bindings n.folded) := by
  cases hr : bindings.runtime? n.keyword with
  | none =>
    have hr' : bindings.runtime? n.folded.keyword = none := by rw [n.keyword_folded, hr]
    rw [compileInvocation_of_unbound _ _ hr, compileInvocation_of_unbound _ _ hr',
      n.keyword_folded, n.span_folded]
    exact .reject _ _ _
  | some r =>
    have hr' : bindings.runtime? n.folded.keyword = some r := by rw [n.keyword_folded, hr]
    rw [compileInvocation_eq _ _ hr, compileInvocation_eq _ _ hr', n.keyword_folded,
      n.elements_folded, n.span_folded]
    refine (RuntimeInfo.runPreParse_folded n).bind fun _ => ?_
    refine (Compiled.FoldsTo.ofCheck (bindArguments_folded _ _ _)).bind fun bound => ?_
    refine ((h r hr).runPostParse_folded n).bind fun _ => ?_
    refine (compileBody_folded (.instantiate n.keyword bound.set bound.arguments)
      hblock).bind fun code => ?_
    exact ((h r hr).runSemanticCheck_folded n).bind fun _ => .pure code

/-- Code one after the other is folded one after the other. -/
theorem append_folded {x x' y y' : Compiled Fragment} (h : Compiled.FoldsTo Fragment.folded x y)
    (h' : Compiled.FoldsTo Fragment.folded x' y') :
    Compiled.FoldsTo Fragment.folded (do return (← x) ++ (← x')) (do return (← y) ++ (← y')) := by
  refine h.bind fun first => h'.bind fun others => ?_
  have happend : Fragment.folded first ++ Fragment.folded others =
    Fragment.folded (first ++ others) := List.map_append.symm
  rw [happend]
  exact .pure _

theorem compileStatements_folded {l : List Statement}
    (h : ∀ n ∈ reachedInvocations l, ∀ r, bindings.runtime? n.keyword = some r → r.IgnoresCase) :
    Compiled.FoldsTo Fragment.folded (compileStatements bindArguments bindings l)
      (compileStatements bindArguments bindings (foldedStatements l)) := by
  induction l using statements_induction with
  | nil => exact .pure []
  | assign target value span rest ih =>
    rw [reachedInvocations_assign] at h
    rw [foldedStatements, compileStatements_cons, compileStatements_cons]
    exact append_folded (.pure [Instruction.assign target value]) (ih h)
  | evaluate e span rest ih =>
    rw [reachedInvocations_evaluate] at h
    rw [foldedStatements, compileStatements_cons, compileStatements_cons]
    exact append_folded (.pure [Instruction.evaluate e]) (ih h)
  | invoke n rest ihblock ih =>
    rw [reachedInvocations_invoke] at h
    simp only [List.forall_mem_cons, List.forall_mem_append] at h
    obtain ⟨hn, hblock, hrest⟩ := h
    rw [foldedStatements, compileStatements_cons, compileStatements_cons]
    exact append_folded (compileInvocation_folded hn (ihblock hblock)) (ih hrest)

theorem compileTopStatement_folded {s : Statement}
    (h : ∀ n ∈ s.reached, ∀ r, bindings.runtime? n.keyword = some r → r.IgnoresCase) :
    Compiled.FoldsTo Fragment.folded (compileTopStatement bindArguments bindings s)
      (compileTopStatement bindArguments bindings s.folded) := by
  cases s with
  | assign target value span => exact .pure [Instruction.assign target value]
  | evaluate e span => exact .pure [Instruction.evaluate e]
  | invoke n =>
    rw [Statement.reached, Invocation.reached_eq, List.forall_mem_cons] at h
    simp only [Statement.folded, compileTopStatement, n.keyword_folded, n.span_folded]
    split
    · exact .reject _ _ _
    · exact compileInvocation_folded h.1 (compileStatements_folded h.2)

/-- A folded script compiles as the script does, to its folded code. -/
theorem compileScript_folded {script : List Statement}
    (h : ∀ n ∈ reachedInvocations script, ∀ r, bindings.runtime? n.keyword = some r →
      r.IgnoresCase) :
    Compiled.FoldsTo Fragment.folded (compileScript bindArguments bindings script)
      (compileScript bindArguments bindings (foldedStatements script)) := by
  induction script with
  | nil => exact .pure []
  | cons s rest ih =>
    rw [reachedInvocations, List.forall_mem_append] at h
    rw [foldedStatements, compileScript_cons, compileScript_cons]
    exact append_folded (compileTopStatement_folded h.1) (ih h.2)

end Scripts

/-- Invocations with the same folded form are of the same keyword. -/
theorem ignoresCase_of_folded_eq {bindings : Bindings} {script script' : List Statement}
    (hcase : foldedStatements script = foldedStatements script')
    (h : ∀ n ∈ reachedInvocations script, ∀ r, bindings.runtime? n.keyword = some r →
      r.IgnoresCase) :
    ∀ n ∈ reachedInvocations script', ∀ r, bindings.runtime? n.keyword = some r →
      r.IgnoresCase := by
  intro n' hn' r hr
  have hmem : n'.folded ∈ (reachedInvocations script).map (·.folded) := by
    rw [← reachedInvocations_folded, hcase, reachedInvocations_folded]
    exact List.mem_map.2 ⟨n', hn', rfl⟩
  obtain ⟨n, hn, hfolded⟩ := List.mem_map.1 hmem
  have hkeyword : n.keyword = n'.keyword := by
    rw [← n.keyword_folded, hfolded, n'.keyword_folded]
  exact h n hn r (hkeyword ▸ hr)

namespace Sample

/-- The sample script with all its names in capitals. -/
def loud : List Statement := [
  .assign "N" (.literal (.int 3)) (.ofLine 1),
  .invoke ⟨⟨⟨0, [0]⟩, suite⟩, [.positional (.literal (.string "all")) (.ofLine 2)],
    some (.scriptBlock [
      .invoke ⟨⟨⟨0, [0, 1]⟩, setup⟩, [],
        some (.hashtable [⟨.literal (.string "RETRIES"), .readVariable "N", .ofLine 3⟩]),
        .ofLine 3⟩,
      .invoke ⟨⟨⟨0, [0, 0]⟩, check⟩,
        [.named "COUNT" (some (.readVariable "N")) (.ofLine 4),
          .positional (.literal (.string "one")) (.ofLine 4)], none, .ofLine 4⟩,
      checkNamed "two" none 5] (.ofLine 2)), .ofLine 2⟩]

theorem folded_loud : foldedStatements (script none) = foldedStatements loud := by
  have hfold {a b : String} (h : a.toList.map Char.toLower = b.toList.map Char.toLower) :
      Text.fold a = Text.fold b := Text.sameName_iff.1 (Text.sameName_of_toList h)
  have hvariable : Text.fold "N" = Text.fold "n" := hfold (by decide)
  have hparameter : Text.fold "COUNT" = Text.fold "Count" := hfold (by decide)
  have hproperty : Text.fold "RETRIES" = Text.fold "Retries" := hfold (by decide)
  simp [script, loud, checkNamed, foldedStatements, Statement.folded, Invocation.folded,
    foldedElements, Element.folded, foldedOption, Expr.folded, foldedEntries,
    HashtableEntry.folded, foldedKeys, HashtableEntry.withFoldedKey, foldedKey, hvariable,
    hparameter, hproperty]

/-- Code for the sample keywords in which checks without a place in a text are refused. -/
def placed : Bindings where
  entries := [
    (⟨0, [0]⟩, .of ⟨"Suite", fun _ => none, .empty, {}⟩),
    (⟨0, [0, 0]⟩, .of ⟨"Check", fun _ => none, .ofList [.postParse, .leaveScope],
      { postParse := some fun node =>
          if node.span.line = 0 then .error ⟨"no place"⟩ else .ok []
        leaveScope := some fun frame _ _ =>
          .ok ((frame.running.parameters.get? "Count").getD .null) }⟩),
    (⟨0, [0, 1]⟩, .of ⟨"Setup", fun _ => none, .ofList [.enterScope], {}⟩)]

theorem ignoresCase_placed {k : Keyword} {r : RuntimeInfo} (h : placed.runtime? k = some r) :
    r.IgnoresCase := by
  obtain ⟨before, after, hentries, -⟩ := List.lookup_eq_some_iff.1 h
  have hmem : (k.id, r) ∈ placed.entries := by simp [hentries]
  simp only [placed, List.mem_cons, List.not_mem_nil, or_false, Prod.mk.injEq] at hmem
  obtain ⟨-, rfl⟩ | ⟨-, rfl⟩ | ⟨-, rfl⟩ := hmem
  · exact ⟨fun _ _ _ _ => rfl, fun _ _ _ _ => rfl⟩
  · refine ⟨fun _ n n' hfolded => ?_, fun _ _ _ _ => rfl⟩
    have hspan : n.span = n'.span := by rw [← n.span_folded, hfolded, n'.span_folded]
    show (if n.span.line = 0 then _ else _) = if n'.span.line = 0 then _ else _
    rw [hspan]
  · exact ⟨fun _ _ _ _ => rfl, fun _ _ _ _ => rfl⟩

end Sample

/-- Two scripts that differ only in the case of names, of keywords whose parse hooks do not see the
difference, call these hooks alike and are accepted or rejected alike, up to the case of a name that
the error quotes. If they are accepted, they do the same to every context and call the same scope
hooks, and fail for the same reason, up to the case of a variable that is not defined. -/
theorem compileScript_caseInsensitive {bindings : Bindings} {script script' : List Statement}
    (hcase : foldedStatements script = foldedStatements script')
    (hhooks : ∀ n ∈ reachedInvocations script, ∀ r, bindings.runtime? n.keyword = some r →
      r.IgnoresCase) :
    let o := compileScript bindArguments bindings script
    let o' := compileScript bindArguments bindings script'
    o.calls.map (·.folded) = o'.calls.map (·.folded) ∧
      ((∃ e e', o.result = .error e ∧ o'.result = .error e' ∧ e.folded = e'.folded) ∨
        ∃ f f', o.result = .ok f ∧ o'.result = .ok f' ∧
          ∀ (current : Bindings) (c : ExecutionContext),
            let run := c.execute current f
            let run' := c.execute current f'
            run.state = run'.state ∧ run.calls = run'.calls ∧
              run.result.mapError (·.folded) = run'.result.mapError (·.folded)) := by
  intro o o'
  have h : Compiled.FoldsTo Fragment.folded o _ := compileScript_folded hhooks
  have h' : Compiled.FoldsTo Fragment.folded o' _ :=
    compileScript_folded (ignoresCase_of_folded_eq hcase hhooks)
  rw [← hcase] at h'
  refine ⟨h.calls_eq.symm.trans h'.calls_eq, (h.results h').imp_right ?_⟩
  rintro ⟨f, f', hf, hf', hfolded⟩
  refine ⟨f, f', hf, hf', fun current c => ?_⟩
  have hrun : (c.execute current f).folded = (c.execute current f').folded := by
    rw [← c.execute_folded, ← c.execute_folded, hfolded]
  obtain ⟨hstate, hcalls, hresult⟩ := Outcome.mk.inj hrun
  exact ⟨hstate, hcalls, hresult⟩

/-- The sample script in capitals does what the sample script does: it calls three hooks. -/
theorem compileScript_caseInsensitive_sample :
    foldedStatements (Sample.script none) = foldedStatements Sample.loud ∧
      ∃ f f', (compileScript bindArguments Sample.placed (Sample.script none)).result = .ok f ∧
        (compileScript bindArguments Sample.placed Sample.loud).result = .ok f' ∧
        (ExecutionContext.empty.execute Sample.placed f).calls.length = 3 ∧
        (ExecutionContext.empty.execute Sample.placed f).state =
          (ExecutionContext.empty.execute Sample.placed f').state ∧
        (ExecutionContext.empty.execute Sample.placed f).calls =
          (ExecutionContext.empty.execute Sample.placed f').calls := by
  obtain ⟨-, ⟨e, e', he, -⟩ | ⟨f, f', hf, hf', hruns⟩⟩ :=
    compileScript_caseInsensitive Sample.folded_loud fun n _ r hr =>
      Sample.ignoresCase_placed (k := n.keyword) hr
  · have hok : (compileScript bindArguments Sample.placed (Sample.script none)).result.isOk =
        true := by
      decide +kernel
    rw [he] at hok
    cases hok
  · obtain ⟨hstate, hcalls, -⟩ := hruns Sample.placed .empty
    refine ⟨Sample.folded_loud, f, f', hf, hf', ?_, hstate, hcalls⟩
    rw [ExecutionContext.calls_execute,
      (simulates_of_emits (emits_of_compileScript hf) .empty).calls]
    decide +kernel

end KeywordEngine
