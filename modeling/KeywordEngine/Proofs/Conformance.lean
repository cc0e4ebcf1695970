import KeywordEngine.Proofs.Bracketing
import KeywordEngine.Proofs.Forest

/-!
# What hooks are shown

Every instance that a hook is shown is complete and well typed, and the instance that a leave hook is
shown is the one that the enter hook of its scope was shown.

* `Instance.Conforms`: an instance that obeys the declaration of its keyword;
  `conforms_of_instantiate` shows it for accepted invocations of discovered keywords.
* `Shows`: calls about scopes above a depth of the stack that show conforming instances and leave
  what they entered. `shows_of_emits` carries it through the tree of statements.
-/

namespace KeywordEngine

open Discovery

variable {bindings : Bindings}

/-! ## Instances -/

/-- An instance that obeys the declaration of its keyword. Its values stand under declared names and
meet their constraints as they are, and nothing mandatory is missing. Only a keyword with a hashtable
body has properties. -/
structure Instance.Conforms (i : Instance) : Prop where
  parameters : ∀ name v, i.parameters.get? name = some v →
    ∃ p ∈ i.keyword.spec.parameters, p.name = name ∧ (p.inSet? i.set).isSome = true ∧
      p.constraint.coerce v = .ok v
  mandatoryParameters : ∀ p ∈ i.keyword.spec.parameters, p.mandatoryIn i.set = true →
    ∃ v, i.parameters.get? p.name = some v
  properties : i.keyword.spec.body = .hashtable → ∀ name v, i.properties.get? name = some v →
    ∃ p ∈ i.keyword.spec.properties, p.name = name ∧ p.constraint.coerce v = .ok v
  mandatoryProperties : i.keyword.spec.body = .hashtable →
    ∀ p ∈ i.keyword.spec.properties, p.mandatory = true → ∃ v, i.properties.get? p.name = some v
  noProperties : i.keyword.spec.body ≠ .hashtable → i.properties = .empty

theorem assignedValues_eq_ok {vars : Variables} {l : List Assignment}
    {values : List (String × Value)} (h : assignedValues vars l = .ok values) :
    List.Forall₂ (fun a e => e.1 = a.target ∧ a.value vars = .ok e.2) l values := by
  induction l generalizing values with
  | nil =>
    obtain rfl : [] = values := by simpa [assignedValues] using h
    exact .nil
  | cons a rest ih =>
    unfold assignedValues at h
    obtain ⟨v, hv, h⟩ := Success.bind_eq_ok.1 h
    obtain ⟨others, hothers, h⟩ := Success.bind_eq_ok.1 h
    obtain rfl := Success.pure_eq_ok.1 h
    exact .cons ⟨rfl, hv⟩ (ih hothers)

section Values

variable {vars : Variables} {l : List Assignment} {plans : List Plan}
  {values : List (String × Value)}

/-- A value found among planned ones is the value of an assignment to that name, and a fixed point of
its constraint. -/
theorem assignment_of_get? (hplans : List.Forall₂ Plans l plans)
    (hvalues : assignedValues vars l = .ok values) {name : String} {v : Value}
    (h : (SortedMap.ofList values).get? name = some v) :
    ∃ a ∈ l, a.target = name ∧ a.constraint.coerce v = .ok v := by
  have hmem := SortedMap.mem_of_get?_ofList h
  obtain ⟨a, ha, hname, hv⟩ := Success.exists_of_forall₂ (assignedValues_eq_ok hvalues).flip hmem
  obtain ⟨p, -, hp⟩ := Success.exists_of_forall₂ hplans ha
  exact ⟨a, ha, hname.symm, coerce_of_plans hp hv⟩

/-- Every target of a plan has a value. -/
theorem get?_of_mem_plans (hplans : List.Forall₂ Plans l plans)
    (hvalues : assignedValues vars l = .ok values) {p : Plan} (hp : p ∈ plans) :
    ∃ v, (SortedMap.ofList values).get? p.target = some v := by
  obtain ⟨a, ha, hap⟩ := Success.exists_of_forall₂ hplans.flip hp
  obtain ⟨⟨name, v⟩, hmem, rfl, -⟩ := Success.exists_of_forall₂ (assignedValues_eq_ok hvalues) ha
  rw [hap.target_eq, ← Option.isSome_iff_exists]
  exact SortedMap.isSome_get?_ofList.2 ⟨v, hmem⟩

end Values

theorem property_of_mem_properties {n : Invocation} {a : Assignment} (ha : a ∈ n.properties) :
    ∃ p ∈ n.keyword.spec.properties, p.name = a.target ∧ p.constraint = a.constraint := by
  obtain ⟨entry, -, hentry⟩ := List.mem_filterMap.1 ha
  obtain ⟨p, hp, rfl⟩ := Option.map_eq_some_iff.1 hentry
  obtain ⟨key, -, hfound⟩ := Option.bind_eq_some_iff.1 hp
  exact ⟨p, List.mem_of_find?_eq_some hfound, rfl, rfl⟩

/-- The instance of an accepted invocation conforms. -/
theorem conforms_of_instantiate {n : Invocation} {start : Fragment} {vars : Variables}
    {i : Instance} (hopens : Opening n start)
    (hsets : ∀ p ∈ n.keyword.spec.parameters, ∃ set, (p.sets.get? set).isSome = true)
    (h : n.instantiate vars = .ok i) : i.Conforms := by
  unfold Invocation.instantiate at h
  obtain ⟨values, hvalues, h⟩ := Success.bind_eq_ok.1 h
  obtain ⟨properties, hproperties, h⟩ := Success.bind_eq_ok.1 h
  obtain rfl := Success.pure_eq_ok.1 h
  obtain ⟨bound, binds⟩ : ∃ bound, bindArguments n.keyword.spec n.elements n.span = .ok bound := by
    cases hopens with
    | plain _ _ binds => exact ⟨_, binds⟩
    | hashtable _ binds _ => exact ⟨_, binds⟩
  have hplans := Invocation.plans_of_bindArguments binds
  have hparameters : ∀ name v, (SortedMap.ofList values).get? name = some v →
      ∃ p ∈ n.keyword.spec.parameters, p.name = name ∧ (p.inSet? n.parameterSet).isSome = true ∧
        p.constraint.coerce v = .ok v := by
    intro name v hget
    obtain ⟨a, ha, rfl, hv⟩ := assignment_of_get? hplans hvalues hget
    obtain ⟨p, hp, hname, hconstraint, hset⟩ :=
      Invocation.parameter_of_mem_arguments binds hsets ha
    exact ⟨p, hp, hname, hset, hconstraint ▸ hv⟩
  have hmandatory : ∀ p ∈ n.keyword.spec.parameters, p.mandatoryIn n.parameterSet = true →
      ∃ v, (SortedMap.ofList values).get? p.name = some v := by
    intro p hp hmandatory
    obtain ⟨plan, hplan, htarget⟩ := Invocation.mandatory_of_bindArguments binds hp hmandatory
    rw [← htarget]
    exact get?_of_mem_plans hplans hvalues hplan
  cases hopens with
  | plain mode bodiless _ =>
    have hnone : n.properties = [] := by simp [Invocation.properties, bodiless]
    obtain rfl : [] = properties := by simpa [hnone, assignedValues] using hproperties
    exact ⟨hparameters, hmandatory, fun hbody => absurd hbody mode, fun hbody => absurd hbody mode,
      fun _ => rfl⟩
  | hashtable mode _ planned =>
    have hplanned := Invocation.plans_of_planProperties planned
    refine ⟨hparameters, hmandatory, fun _ name v hget => ?_, fun _ p hp hp' => ?_,
      fun hbody => absurd mode hbody⟩
    · obtain ⟨a, ha, rfl, hv⟩ := assignment_of_get? hplanned hproperties hget
      obtain ⟨p, hp, hname, hconstraint⟩ := property_of_mem_properties ha
      exact ⟨p, hp, hname, hconstraint ▸ hv⟩
    · obtain ⟨plan, hplan, htarget⟩ := (planProperties_eq_ok.1 planned).2.2 p hp hp'
      rw [← htarget]
      exact get?_of_mem_plans hplanned hproperties hplan

/-! ## Calls -/

/-- The instance that a hook is shown. -/
def ScopeCall.shown : ScopeCall → Instance
  | enter running _ => running
  | leave frame _ _ => frame.running

/-- The frames around that instance. -/
def ScopeCall.ancestors : ScopeCall → List Frame
  | enter _ ancestors => ancestors
  | leave _ ancestors _ => ancestors

/-- Every leave hook is shown the instance and the frames that the enter hook of its keyword, if
there is one, was shown before; the calls between these two are about scopes further up. -/
def Paired (bindings : Bindings) (calls : List ScopeCall) : Prop :=
  ∀ before frame ancestors children after, calls = before ++ .leave frame ancestors children :: after →
    bindings.callsEnter frame.running.keyword = true →
    ∃ earlier between, before = earlier ++ .enter frame.running ancestors :: between ∧
      ∀ call ∈ between, ancestors.length < call.ancestors.length

/-- Calls about scopes above the lowest `depth` frames that show conforming instances. -/
structure Shows (bindings : Bindings) (depth : Nat) (calls : List ScopeCall) : Prop where
  conforms : ∀ call ∈ calls, call.shown.Conforms
  deep : ∀ call ∈ calls, depth ≤ call.ancestors.length
  paired : Paired bindings calls

namespace Shows

variable {depth : Nat} {x y : List ScopeCall}

theorem nil : Shows bindings depth [] := by
  refine ⟨by simp, by simp, ?_⟩
  intro before frame ancestors children after h
  simp at h

theorem mono (h : Shows bindings depth x) {lower : Nat} (hle : lower ≤ depth) :
    Shows bindings lower x :=
  ⟨h.conforms, fun call hcall => Nat.le_trans hle (h.deep call hcall), h.paired⟩

theorem append (hx : Shows bindings depth x) (hy : Shows bindings depth y) :
    Shows bindings depth (x ++ y) := by
  refine ⟨?_, ?_, ?_⟩
  · intro call hcall
    exact (List.mem_append.1 hcall).elim (hx.conforms call) (hy.conforms call)
  · intro call hcall
    exact (List.mem_append.1 hcall).elim (hx.deep call) (hy.deep call)
  · intro before frame ancestors children after h henter
    obtain ⟨others, hbefore⟩ | ⟨others, rfl, hafter⟩ := append_eq_append_cons h
    · exact hx.paired before frame ancestors children others hbefore henter
    · obtain ⟨earlier, between, rfl, hbetween⟩ :=
        hy.paired others frame ancestors children after hafter henter
      exact ⟨x ++ earlier, between, by simp, hbetween⟩

variable {runtime : RuntimeInfo} {i : Instance} {ancestors : List Frame}

/-- The call of an enter hook. -/
theorem opened (hi : i.Conforms) : Shows bindings ancestors.length (runtime.opened i ancestors).1 := by
  unfold RuntimeInfo.opened
  split
  · refine ⟨by simpa [ScopeCall.shown] using hi, by simp [ScopeCall.ancestors], ?_⟩
    intro before frame ancestors children after h
    cases before with
    | nil => simp at h
    | cons call rest => simp at h
  · exact nil

/-- The calls of a scope: those of its own hooks around calls from above its frame. -/
theorem scope {frame : Frame} {enter inner : List ScopeCall} {children : List (Option Value)}
    (hi : i.Conforms) (hbound : bindings.runtime? i.keyword = some runtime)
    (hopened : runtime.opened i ancestors = (enter, .ok frame))
    (hinner : Shows bindings (ancestors.length + 1) inner) :
    Shows bindings ancestors.length
      (enter ++ inner ++ (runtime.closed frame ancestors children).1) := by
  have hfirst : Shows bindings ancestors.length enter := by
    have h : Shows bindings ancestors.length (runtime.opened i ancestors).1 := opened hi
    rwa [hopened] at h
  have hrunning := ScopeStack.running_of_opened hopened
  have hopen := hfirst.append (hinner.mono (Nat.le_succ _))
  unfold RuntimeInfo.closed
  split
  · refine ⟨?_, ?_, ?_⟩
    · intro call hcall
      rcases List.mem_append.1 hcall with hcall | hcall
      · exact hopen.conforms call hcall
      · obtain rfl := List.mem_singleton.1 hcall
        show frame.running.Conforms
        rw [hrunning]
        exact hi
    · intro call hcall
      rcases List.mem_append.1 hcall with hcall | hcall
      · exact hopen.deep call hcall
      · obtain rfl := List.mem_singleton.1 hcall
        exact Nat.le_refl _
    · intro before frame' ancestors' children' after h henter
      obtain ⟨others, hbefore⟩ | ⟨others, rfl, hafter⟩ := append_eq_append_cons h
      · exact hopen.paired before frame' ancestors' children' others hbefore henter
      · -- the leave hook of this scope: its enter hook was called first of all
        obtain rfl : others = [] := by
          cases others with
          | nil => rfl
          | cons call rest => simp at hafter
        obtain ⟨rfl, rfl, rfl⟩ := ScopeCall.leave.inj (List.cons.inj hafter).1
        have hcalls : enter = [.enter frame.running ancestors] := by
          rw [hrunning] at henter ⊢
          have hhook : runtime.hasEnterHook = true := by
            simpa [Bindings.callsEnter, hbound] using henter
          unfold RuntimeInfo.opened at hopened
          rw [if_pos hhook] at hopened
          exact (Prod.mk.inj hopened).1.symm
        refine ⟨[], inner, by simp [hcalls], fun call hcall => ?_⟩
        exact hinner.deep call hcall
  · rw [List.append_nil]
    exact hopen

end Shows

namespace Meaning

variable {depth : Nat}

theorem shows_andThen {m : Meaning} {next : Variables → Meaning}
    (hm : Shows bindings depth m.calls) (hnext : ∀ vars, Shows bindings depth (next vars).calls) :
    Shows bindings depth (m.andThen next).calls := by
  unfold andThen
  split
  · exact hm
  · exact hm.append (hnext m.vars)

theorem shows_inScope {runtime : RuntimeInfo} {i : Instance} {ancestors : List Frame}
    {vars : Variables} {block : List Frame → Meaning} (hi : i.Conforms)
    (hbound : bindings.runtime? i.keyword = some runtime)
    (hblock : ∀ frames, Shows bindings frames.length (block frames).calls) :
    Shows bindings ancestors.length (inScope runtime i ancestors vars block).calls := by
  have hopened : Shows bindings ancestors.length (runtime.opened i ancestors).1 := .opened hi
  unfold inScope
  obtain ⟨enter, frame, heq⟩ : ∃ enter frame,
      runtime.opened i ancestors = (enter, frame) := ⟨_, _, rfl⟩
  rw [heq] at hopened ⊢
  cases frame with
  | error e => exact hopened
  | ok frame =>
    have hinner := hblock (ancestors ++ [frame])
    rw [List.length_append, List.length_singleton] at hinner
    simp only
    split
    · exact hopened.append (hinner.mono (Nat.le_succ _))
    · split
      · exact .scope hi hbound heq hinner
      · exact .scope hi hbound heq hinner

end Meaning

theorem shows_of_emits {l : List Statement} {f : Fragment} (h : Emits bindings l f)
    (hsets : ∀ n ∈ reachedInvocations l, ∀ p ∈ n.keyword.spec.parameters,
      ∃ set, (p.sets.get? set).isSome = true) (ancestors : List Frame) (vars : Variables) :
    Shows bindings ancestors.length (statementsMeaning bindings ancestors vars l).calls := by
  induction h generalizing ancestors vars with
  | nil =>
    rw [statementsMeaning_nil]
    exact .nil
  | assign following ih =>
    rw [statementsMeaning_cons]
    refine Meaning.shows_andThen ?_ fun vars => ih (by simpa using hsets) ancestors vars
    unfold Statement.meaning
    split <;> exact .nil
  | evaluate following ih =>
    rw [statementsMeaning_cons]
    refine Meaning.shows_andThen ?_ fun vars => ih (by simpa using hsets) ancestors vars
    unfold Statement.meaning
    split <;> exact .nil
  | @invoke n runtime start inner rest code bound opens block following ihblock ih =>
    rw [reachedInvocations_invoke] at hsets
    simp only [List.mem_cons, List.mem_append] at hsets
    have hblock := ihblock fun n hn => hsets n (.inr (.inl hn))
    rw [statementsMeaning_cons]
    refine Meaning.shows_andThen ?_ fun vars =>
      ih (fun n hn => hsets n (.inr (.inr hn))) ancestors vars
    unfold Statement.meaning
    rw [Invocation.meaning_eq bindings bound]
    split
    · split
      · exact .nil
      · rename_i i hi
        have hkeyword := ExecutionContext.keyword_of_instantiate hi
        exact Meaning.shows_inScope (conforms_of_instantiate opens (hsets n (.inl rfl)) hi)
          (hkeyword ▸ bound) fun frames => hblock frames vars
    · exact hblock ancestors vars

/-! ### The sample is discovered -/

namespace Sample

/-- A class with a keyword marker. -/
def keywordType (name : String) (body : BodyMode) (members : List MemberRecord)
    (nested : List TypeRecord) : TypeRecord :=
  ⟨name, some Marker.baseType, .classType, [Marker.ofKeyword body .optionalMany], members, [],
    nested⟩

/-- A settable member with one marker. -/
def member (name signature : String) (marker : AttributeRecord) : MemberRecord :=
  ⟨name, signature, .property, true, [marker]⟩

/-- The types that declare the sample keywords. -/
def metadata : ModuleMetadata :=
  let title := member "Title" "System.String" (Marker.ofParameter ⟨some 0, true⟩ none)
  let count := member "Count" "System.Int64" (Marker.ofParameter ⟨none, false⟩ none)
  let retries := member "Retries" "System.Int64" (Marker.ofProperty true)
  ⟨module, [keywordType "Suite" .scriptBlock [title]
    [keywordType "Check" .command [count, title] [],
      keywordType "Setup" .hashtable [retries] []]]⟩

theorem discover_metadata : ∃ keywords, discover metadata = .ok keywords ∧
    keywords.values = [suite] := by
  have hok : (discover metadata).isOk = true := by decide +kernel
  exact ⟨_, discover_of_isOk hok, by with_unfolding_all rfl⟩

theorem discovered_suite : Discovered ⟨⟨0, [0]⟩, suite⟩ := by
  obtain ⟨keywords, hdiscover, hvalues⟩ := discover_metadata
  refine ⟨metadata, keywords, 0, hdiscover, .top ?_⟩
  rw [hvalues]
  simp [Forest.keywords]

theorem discovered_child {k : Keyword} (h : k ∈ Keyword.children ⟨⟨0, [0]⟩, suite⟩) :
    Discovered k := by
  obtain ⟨m, keywords, id, hdiscover, hheld⟩ := discovered_suite
  exact ⟨m, keywords, id, hdiscover, .nested hheld h⟩

theorem discovered_script (second : Option Expr) :
    ∀ n ∈ reachedInvocations (script second), Discovered n.keyword := by
  have hcheck : Discovered ⟨⟨0, [0, 0]⟩, check⟩ :=
    discovered_child (by simp [Keyword.children, suite, KeywordId.child])
  have hsetup : Discovered ⟨⟨0, [0, 1]⟩, setup⟩ :=
    discovered_child (by simp [Keyword.children, suite, KeywordId.child])
  simp [script, checkNamed, Invocation.block, discovered_suite, hcheck, hsetup]

end Sample

/-- Whatever a run of accepted code shows to scope hooks conforms to its declaration, and a leave hook
is shown what the enter hook of its scope was shown. -/
theorem ExecutionContext.conforms_execute {script : List Statement} {f : Fragment}
    (hdiscovered : ∀ n ∈ reachedInvocations script, Discovered n.keyword)
    (h : (compileScript bindArguments bindings script).result = .ok f) (c : ExecutionContext) :
    (∀ call ∈ (c.execute bindings f).calls, call.shown.Conforms) ∧
      Paired bindings (c.execute bindings f).calls := by
  have hemits := emits_of_compileScript h
  have hshows := shows_of_emits hemits
    (fun n hn p hp => sets_of_discovered (hdiscovered n hn) hp) c.scope.ancestors c.vars
  rw [calls_execute, (simulates_of_emits hemits c).calls]
  exact ⟨hshows.conforms, hshows.paired⟩

/-- The suite whose second check has no count fails in the leave hook of that check, after it showed
four conforming instances. -/
theorem ExecutionContext.conforms_execute_sample :
    ∃ f, (compileScript bindArguments Sample.code (Sample.script none)).result = .ok f ∧
      (∀ n ∈ reachedInvocations (Sample.script none), Discovered n.keyword) ∧
      (ExecutionContext.empty.execute Sample.code f).calls.length = 4 ∧
      (∀ call ∈ (ExecutionContext.empty.execute Sample.code f).calls, call.shown.Conforms) ∧
      Paired Sample.code (ExecutionContext.empty.execute Sample.code f).calls := by
  have hok : (compileScript bindArguments Sample.code (Sample.script none)).result.isOk = true := by
    decide +kernel
  obtain ⟨f, hf⟩ := Sample.compiles_of_isOk hok
  have hdiscovered := Sample.discovered_script none
  refine ⟨f, hf, hdiscovered, ?_, conforms_execute hdiscovered hf .empty⟩
  rw [calls_execute, (simulates_of_emits (emits_of_compileScript hf) .empty).calls]
  decide +kernel

end KeywordEngine
