import KeywordEngine.Proofs.Folding
import KeywordEngine.Proofs.ParameterSets
import Mathlib.Data.List.Nodup

/-!
# Bound arguments

What it means that the arguments of an invocation, or its hashtable body, were accepted: there is one
plan for each assignment, in the order in which the assignments are evaluated, and nothing mandatory
is missing.

* `Invocation.set_of_bindArguments`, `Invocation.plans_of_bindArguments`,
  `Invocation.mandatory_of_bindArguments`: accepted arguments.
* `Invocation.parameter_of_mem_arguments`: every parameter that gets an argument is declared and
  belongs to the set in use.
* `planProperties_eq_ok`: an accepted hashtable body.
-/

namespace KeywordEngine

namespace Arguments

section Assigned

variable (k : KeywordSpec) (elements : List Element)

/-- The parameters that elements name, each with its argument, in source order. -/
def namedBy : List (ParameterSpec × Option Expr) := elements.filterMap (·.named? k)

/-- The arguments without a name, in source order. -/
def unnamed : List Expr := elements.filterMap (·.positional?)

/-- The parameters that get a value, each with what gives it: the named ones in source order, then
the slots as far as there are arguments for them. -/
def assigned (slots : List ParameterSpec) : List (ParameterSpec × Option Expr) :=
  namedBy k elements ++ slots.zip ((unnamed elements).map some)

end Assigned

variable {k : KeywordSpec}

/-- The parameter that an element names, with its argument. -/
def Named.entry (n : Named) : ParameterSpec × Option Expr := (n.parameter, n.argument)

theorem any_name_eq {named : List Named} {l : List (ParameterSpec × Option Expr)}
    (h : named.map Named.entry = l) (name : String) :
    named.any (·.parameter.name == name) = l.any (·.1.name == name) := by
  subst h
  rw [List.any_map]
  rfl

theorem entries_of_readNamed {before named : List Named} {elements : List Element}
    (h : readNamed k before elements = .ok named) :
    named.map Named.entry = before.map Named.entry ++ elements.filterMap (·.named? k) := by
  induction elements generalizing before with
  | nil =>
    obtain rfl : before = named := by simpa [readNamed] using h
    simp
  | cons e rest ih =>
    cases e with
    | positional argument span =>
      rw [readNamed] at h
      simpa [Element.named?] using ih h
    | named name argument span =>
      rw [readNamed] at h
      split at h
      · simp at h
      · rename_i parameter hp
        split at h
        · simp at h
        · simpa [Element.named?, hp, Named.entry] using ih h

theorem mem_parameters_of_mem_namedBy {elements : List Element} {a : ParameterSpec × Option Expr}
    (h : a ∈ namedBy k elements) : a.1 ∈ k.parameters := by
  obtain ⟨e, -, he⟩ := List.mem_filterMap.1 h
  cases e with
  | positional argument span => cases he
  | named name argument span =>
    obtain ⟨p, hp, rfl⟩ := Option.map_eq_some_iff.1 he
    exact List.mem_of_find?_eq_some hp

theorem argument_positionals (elements : List Element) :
    (positionals elements).map (·.argument) = unnamed elements := by
  unfold unnamed
  induction elements with
  | nil => rfl
  | cons e rest ih => cases e <;> simp [positionals, Element.positional?, ih]

/-! ## The parameter set -/

/-- Whether each of the named parameters belongs to `set`. -/
def fits (named : List Named) (set : String) : Bool :=
  named.all fun n => (n.parameter.inSet? set).isSome

theorem fits_eq_all {named : List Named} {l : List (ParameterSpec × Option Expr)}
    (h : named.map Named.entry = l) :
    fits named = fun set => l.all fun a => (a.1.inSet? set).isSome := by
  subst h
  funext set
  rw [List.all_map]
  rfl

/-- Narrowing keeps the candidates to which every named parameter belongs. It fails if there is no
such candidate. -/
theorem narrowSets_eq_ok {candidates kept : List String} {named : List Named}
    (h : candidates ≠ []) :
    narrowSets k candidates named = .ok kept ↔
      kept = candidates.filter (fits named) ∧ kept ≠ [] := by
  induction named generalizing candidates with
  | nil =>
    have hall : fits [] = fun _ => true := rfl
    rw [narrowSets, hall, List.filter_true, Except.ok.injEq, eq_comm]
    exact ⟨fun hkept => ⟨hkept, hkept ▸ h⟩, And.left⟩
  | cons n rest ih =>
    have hfits : candidates.filter (fits (n :: rest)) =
        (candidates.filter fun set => (n.parameter.inSet? set).isSome).filter (fits rest) := by
      rw [List.filter_filter]
      congr 1
      funext set
      simp [fits, Bool.and_comm]
    rw [narrowSets, hfits]
    split
    · rename_i hnone
      simp [hnone]
    · rename_i hsome
      exact ih hsome

theorem set_of_resolveSet {named : List Named} {set : String} (h : resolveSet k named = .ok set) :
    set = preferredSet k (k.setNames.filter (fits named)) := by
  unfold resolveSet at h
  split at h
  · rename_i hk
    obtain rfl : allSets = set := by simpa using h
    cases hd : k.defaultSet <;> simp [hk, preferredSet, hd]
  · rename_i hk
    obtain ⟨kept, hkept, rfl⟩ := Success.map_eq_ok.1 h
    rw [((narrowSets_eq_ok hk).1 hkept).1]

theorem preferredSet_mem {candidates : List String} (h : candidates ≠ []) :
    preferredSet k candidates ∈ candidates := by
  unfold preferredSet
  split
  · rename_i set hset
    simpa using (Option.filter_eq_some_iff.1 hset).2
  · cases candidates with
    | nil => exact absurd rfl h
    | cons set rest => simp

/-- Where sets are declared, the named parameters belong to the set in use. -/
theorem fits_of_resolveSet {named : List Named} {set : String} (h : resolveSet k named = .ok set)
    (hk : k.setNames ≠ []) : fits named set = true := by
  unfold resolveSet at h
  split at h
  · rename_i hnil
    exact absurd hnil hk
  · obtain ⟨kept, hkept, rfl⟩ := Success.map_eq_ok.1 h
    obtain ⟨heq, hne⟩ := (narrowSets_eq_ok hk).1 hkept
    have := preferredSet_mem (k := k) hne
    rw [heq] at this ⊢
    exact (List.mem_filter.1 this).2

/-! ## Plans -/

theorem planFor_eq_ok {p : ParameterSpec} {e : Expr} {span : Span} {plan : Plan} :
    planFor k p e span = .ok plan ↔ Plans (.ofParameter (p, some e)) plan := by
  unfold planFor Assignment.ofParameter
  rw [plans_expression_iff]
  split <;> simp [*]

theorem planNamed_eq_ok {n : Named} {plan : Plan} :
    planNamed k n = .ok plan ↔ Plans (.ofParameter n.entry) plan := by
  unfold planNamed Named.entry
  split
  · rename_i e he
    rw [he, planFor_eq_ok]
  · rename_i he
    rw [he]
    unfold Assignment.ofParameter
    rw [plans_switch_iff]
    split <;> simp [*]

theorem mapM_planNamed_eq_ok {named : List Named} {plans : List Plan} :
    named.mapM (planNamed k) = .ok plans ↔
      List.Forall₂ Plans ((named.map Named.entry).map .ofParameter) plans := by
  rw [Success.mapM_eq_ok, List.map_map, List.forall₂_map_left_iff]
  simp only [planNamed_eq_ok, Function.comp_apply]

theorem planPositionals_eq_ok {slots : List ParameterSpec} {elements : List Positional}
    {plans : List Plan} :
    planPositionals k slots elements = .ok plans ↔
      List.Forall₂ Plans
        ((slots.zip ((elements.map (·.argument)).map some)).map .ofParameter) plans := by
  induction slots generalizing elements plans with
  | nil => simp [planPositionals, eq_comm]
  | cons p rest ih =>
    cases elements with
    | nil => simp [planPositionals, eq_comm]
    | cons e others =>
      simp only [planPositionals, Success.bind_eq_ok, Success.pure_eq_ok, planFor_eq_ok, ih,
        List.map_cons, List.zip_cons_cons, List.forall₂_cons_left_iff]
      constructor
      · rintro ⟨plan, hplan, following, hfollowing, rfl⟩
        exact ⟨plan, following, hplan, hfollowing, rfl⟩
      · rintro ⟨plan, following, hplan, hfollowing, rfl⟩
        exact ⟨plan, hplan, following, hfollowing, rfl⟩

/-- The parameters that are put in order by their positions in a set are those that have a position
there. -/
theorem mem_placed {l : List ParameterSpec} {set : String} {p : ParameterSpec} :
    p ∈ ((l.filterMap fun p => (p.position? set).map (·, p)).mergeSort
      fun a b => a.1 ≤ b.1).map (·.2) ↔ p ∈ l ∧ (p.position? set).isSome = true := by
  simp only [List.mem_map, List.mem_mergeSort, List.mem_filterMap, Option.map_eq_some_iff]
  constructor
  · rintro ⟨_, ⟨q, hq, position, hposition, rfl⟩, rfl⟩
    exact ⟨hq, by simp [hposition]⟩
  · rintro ⟨hp, hposition⟩
    obtain ⟨position, hposition⟩ := Option.isSome_iff_exists.1 hposition
    exact ⟨(position, p), ⟨p, hp, position, hposition, rfl⟩, rfl⟩

theorem missing?_eq_none_iff {set : String} {plans : List Plan} :
    missing? k set plans = none ↔
      ∀ p ∈ k.parameters, p.mandatoryIn set = true → ∃ plan ∈ plans, plan.target = p.name := by
  simp [missing?, List.find?_eq_none]

/-- The steps of an accepted binding. -/
theorem bindArguments_eq_ok {elements : List Element} {span : Span} {bound : BoundArguments} :
    bindArguments k elements span = .ok bound ↔
      ∃ named, readNamed k [] elements = .ok named ∧ resolveSet k named = .ok bound.set ∧
        (unnamed elements).length ≤ (slots k named bound.set).length ∧
        List.Forall₂ Plans
          ((assigned k elements (slots k named bound.set)).map .ofParameter) bound.arguments ∧
        missing? k bound.set bound.arguments = none := by
  have hroom (l : List ParameterSpec) : (positionals elements)[l.length]? = none ↔
      (unnamed elements).length ≤ l.length := by
    rw [List.getElem?_eq_none_iff, ← argument_positionals, List.length_map]
  have hplans {named : List Named} {l : List ParameterSpec}
      (hnamed : readNamed k [] elements = .ok named) :
      List.Forall₂ Plans ((assigned k elements l).map .ofParameter) bound.arguments ↔
        ∃ namedPlans positionalPlans, named.mapM (planNamed k) = .ok namedPlans ∧
          planPositionals k l (positionals elements) = .ok positionalPlans ∧
          namedPlans ++ positionalPlans = bound.arguments := by
    have hentries : named.map Named.entry = namedBy k elements := entries_of_readNamed hnamed
    rw [assigned, List.map_append, Success.forall₂_append_left_iff]
    simp only [mapM_planNamed_eq_ok, planPositionals_eq_ok, argument_positionals, hentries]
  obtain ⟨set, plans⟩ := bound
  constructor
  · intro h
    unfold bindArguments at h
    obtain ⟨named, hnamed, h⟩ := Success.bind_eq_ok.1 h
    obtain ⟨set', hset, h⟩ := Success.bind_eq_ok.1 h
    obtain ⟨namedPlans, hnamedPlans, h⟩ := Success.bind_eq_ok.1 h
    simp only at h
    split at h
    · simp at h
    · rename_i hextra
      obtain ⟨positionalPlans, hpositional, h⟩ := Success.bind_eq_ok.1 h
      split at h
      · obtain ⟨_, hthrow, -⟩ := Success.bind_eq_ok.1 h
        exact absurd hthrow Success.throw_ne_ok
      · rename_i hmissing
        obtain ⟨rfl, rfl⟩ := BoundArguments.mk.inj (Success.pure_eq_ok.1 h)
        refine ⟨named, hnamed, hset, (hroom _).1 (Option.eq_none_iff_forall_ne_some.2 hextra), ?_,
          Option.eq_none_iff_forall_ne_some.2 hmissing⟩
        exact (hplans hnamed).2 ⟨namedPlans, positionalPlans, hnamedPlans, hpositional, rfl⟩
  · rintro ⟨named, hnamed, hset, hlength, harguments, hmissing⟩
    obtain ⟨namedPlans, positionalPlans, hnamedPlans, hpositional, rfl⟩ :=
      (hplans hnamed).1 harguments
    have hextra := (hroom _).2 hlength
    simp only at hset hpositional hextra hmissing
    simp [bindArguments, hnamed, hset, hnamedPlans, hextra, hpositional, hmissing]

end Arguments

/-! ## Hashtable bodies -/

section Properties

variable {k : KeywordSpec}

/-- A plan for the property that the key of an entry names. -/
def PlansEntry (k : KeywordSpec) (entry : HashtableEntry) (plan : Plan) : Prop :=
  ∃ a, entry.assignment? k = some a ∧ Plans a plan

/-- An entry is accepted if there is a plan for it, under a name that no earlier plan has. -/
theorem planEntry_eq_ok {before : List Plan} {entry : HashtableEntry} {plan : Plan} :
    planEntry k before entry = .ok plan ↔
      PlansEntry k entry plan ∧ plan.target ∉ before.map (·.target) := by
  unfold planEntry PlansEntry HashtableEntry.assignment?
  cases literalKey? entry.key with
  | none => simp
  | some key =>
    simp only [Option.bind_some]
    cases k.property? key with
    | none => simp
    | some p =>
      simp only [Option.map_some, Option.some.injEq, exists_eq_left', plans_expression_iff,
        Success.ite_throw_eq_ok]
      rw [and_comm]
      cases Operand.plan entry.value p.constraint with
      | error error => simp
      | ok operand =>
        simp only [Success.pure_eq_ok, Except.ok.injEq, exists_eq_left']
        refine and_congr_right ?_
        rintro rfl
        simp

/-- Entries are accepted if there is a plan for each of them and all plans have different names. -/
theorem planEntries_eq_ok {before plans : List Plan} {entries : List HashtableEntry}
    (hbefore : (before.map (·.target)).Nodup) :
    planEntries k before entries = .ok plans ↔ (plans.map (·.target)).Nodup ∧
      ∃ added, before ++ added = plans ∧ List.Forall₂ (PlansEntry k) entries added := by
  induction entries generalizing before with
  | nil =>
    simp only [planEntries, Except.ok.injEq, List.forall₂_nil_left_iff, exists_eq_right,
      List.append_nil]
    exact ⟨fun h => ⟨h ▸ hbefore, h⟩, And.right⟩
  | cons entry rest ih =>
    simp only [planEntries, Success.bind_eq_ok, planEntry_eq_ok, List.forall₂_cons_left_iff]
    have hnext {plan : Plan} (hplan : plan.target ∉ before.map (·.target)) :
        ((before ++ [plan]).map (·.target)).Nodup := by
      rw [List.map_append, List.map_singleton, ← List.concat_eq_append]
      exact hbefore.concat hplan
    constructor
    · rintro ⟨plan, ⟨hplan, hnew⟩, hrest⟩
      obtain ⟨hnodup, added, rfl, hadded⟩ := (ih (hnext hnew)).1 hrest
      exact ⟨hnodup, plan :: added, by simp, plan, added, hplan, hadded, rfl⟩
    · rintro ⟨hnodup, -, rfl, plan, added, hplan, hadded, rfl⟩
      -- names that differ in the end differ from those of the plans made before
      have hnew : plan.target ∉ before.map (·.target) := by
        rw [List.map_append, List.nodup_append] at hnodup
        exact fun hmem => hnodup.2.2 _ hmem _ (by simp) rfl
      exact ⟨plan, ⟨hplan, hnew⟩, (ih (hnext hnew)).2 ⟨hnodup, added, by simp, hadded⟩⟩

/-- A body is accepted if there is a plan for each entry, all plans have different names and nothing
mandatory is missing. -/
theorem planProperties_eq_ok {entries : List HashtableEntry} {span : Span} {plans : List Plan} :
    planProperties k entries span = .ok plans ↔
      List.Forall₂ (PlansEntry k) entries plans ∧ (plans.map (·.target)).Nodup ∧
      ∀ p ∈ k.properties, p.mandatory = true → ∃ plan ∈ plans, plan.target = p.name := by
  have hmissing (plans : List Plan) :
      k.properties.find? (fun p => p.mandatory && !plans.any (·.target == p.name)) = none ↔
        ∀ p ∈ k.properties, p.mandatory = true → ∃ plan ∈ plans, plan.target = p.name := by
    simp [List.find?_eq_none]
  have hnil : (([] : List Plan).map (·.target)).Nodup := List.nodup_nil
  unfold planProperties
  simp only [Success.bind_eq_ok, planEntries_eq_ok hnil, List.nil_append, exists_eq_left]
  rw [← hmissing]
  constructor
  · rintro ⟨planned, ⟨hnodup, hplans⟩, h⟩
    split at h
    · simp at h
    · rename_i hnone
      obtain rfl := Success.pure_eq_ok.1 h
      exact ⟨hplans, hnodup, hnone⟩
  · rintro ⟨hplans, hnodup, hnone⟩
    exact ⟨plans, ⟨hnodup, hplans⟩, by rw [hnone]; rfl⟩

/-- Plans for entries are plans for the assignments that the entries stand for. -/
theorem plans_of_plansEntry {entries : List HashtableEntry} {plans : List Plan}
    (h : List.Forall₂ (PlansEntry k) entries plans) :
    List.Forall₂ Plans (entries.filterMap (·.assignment? k)) plans := by
  induction h with
  | nil => exact .nil
  | cons hplan _ ih =>
    obtain ⟨a, ha, hp⟩ := hplan
    rw [List.filterMap_cons_some ha]
    exact .cons hp ih

end Properties

/-! ## Invocations -/

namespace Invocation

open Arguments

variable {n : Invocation} {bound : BoundArguments}

theorem namedArguments_of_readNamed {named : List Named}
    (h : readNamed n.keyword.spec [] n.elements = .ok named) :
    named.map Named.entry = n.namedArguments :=
  entries_of_readNamed h

theorem fits_eq {named : List Named}
    (h : readNamed n.keyword.spec [] n.elements = .ok named) :
    fits named = fun set => n.namedArguments.all fun a => (a.1.inSet? set).isSome :=
  fits_eq_all (namedArguments_of_readNamed h)

theorem set_of_bindArguments
    (h : bindArguments n.keyword.spec n.elements n.span = .ok bound) :
    bound.set = n.parameterSet := by
  obtain ⟨named, hnamed, hset, -⟩ := bindArguments_eq_ok.1 h
  rw [set_of_resolveSet hset, fits_eq hnamed]
  rfl

theorem slots_eq {named : List Named}
    (h : readNamed n.keyword.spec [] n.elements = .ok named) :
    slots n.keyword.spec named n.parameterSet = n.positionalParameters := by
  unfold slots positionalParameters
  simp only [any_name_eq (namedArguments_of_readNamed h)]

/-- Accepted arguments have one plan per assignment. -/
theorem plans_of_bindArguments
    (h : bindArguments n.keyword.spec n.elements n.span = .ok bound) :
    List.Forall₂ Plans n.arguments bound.arguments := by
  have hset := set_of_bindArguments h
  obtain ⟨named, hnamed, -, -, hplans, -⟩ := bindArguments_eq_ok.1 h
  rw [hset, slots_eq hnamed] at hplans
  exact hplans

/-- An accepted hashtable body has one plan per assignment. -/
theorem plans_of_planProperties {plans : List Plan}
    (h : planProperties n.keyword.spec n.entries n.span = .ok plans) :
    List.Forall₂ Plans n.properties plans :=
  plans_of_plansEntry (planProperties_eq_ok.1 h).1

/-- Accepted arguments leave out no parameter that is mandatory in the set in use. -/
theorem mandatory_of_bindArguments
    (h : bindArguments n.keyword.spec n.elements n.span = .ok bound) {p : ParameterSpec}
    (hp : p ∈ n.keyword.spec.parameters) (hmandatory : p.mandatoryIn n.parameterSet = true) :
    ∃ plan ∈ bound.arguments, plan.target = p.name := by
  obtain ⟨-, -, -, -, -, hmissing⟩ := bindArguments_eq_ok.1 h
  rw [← set_of_bindArguments h] at hmandatory
  exact missing?_eq_none_iff.1 hmissing p hp hmandatory

/-! ### The parameters that get arguments -/

theorem inSet?_of_mem_positionalParameters {p : ParameterSpec}
    (hp : p ∈ n.positionalParameters) :
    p ∈ n.keyword.spec.parameters ∧ (p.inSet? n.parameterSet).isSome = true := by
  obtain ⟨hfree, hposition⟩ := mem_placed.1 hp
  obtain ⟨position, hposition⟩ := Option.isSome_iff_exists.1 hposition
  obtain ⟨membership, hmembership, -⟩ := Option.bind_eq_some_iff.1 hposition
  exact ⟨(List.mem_filter.1 hfree).1, by simp [hmembership]⟩

/-- Every parameter that gets an argument is declared and belongs to the set in use, if every
declared parameter belongs to some set. -/
theorem parameter_of_mem_arguments
    (h : bindArguments n.keyword.spec n.elements n.span = .ok bound)
    (hsets : ∀ p ∈ n.keyword.spec.parameters, ∃ set, (p.sets.get? set).isSome = true)
    {a : Assignment} (ha : a ∈ n.arguments) :
    ∃ p ∈ n.keyword.spec.parameters, p.name = a.target ∧ p.constraint = a.constraint ∧
      (p.inSet? n.parameterSet).isSome = true := by
  obtain ⟨entry, hentry, rfl⟩ := List.mem_map.1 ha
  rcases List.mem_append.1 hentry with hnamed | hpositional
  · have hp := mem_parameters_of_mem_namedBy hnamed
    refine ⟨entry.1, hp, rfl, rfl, ?_⟩
    have hset := set_of_bindArguments h
    obtain ⟨named, hread, hresolve, -⟩ := bindArguments_eq_ok.1 h
    by_cases hk : n.keyword.spec.setNames = []
    · have hall : n.parameterSet = allSets := by
        rw [← hset]
        simpa [resolveSet, hk] using hresolve.symm
      obtain ⟨set, hmember⟩ := hsets entry.1 hp
      rw [hall]
      exact KeywordSpec.inSet?_allSets_of_setNames_eq_nil hk hp hmember
    · have hfits := fits_of_resolveSet hresolve hk
      rw [fits_eq hread, hset] at hfits
      exact List.all_eq_true.1 hfits entry hnamed
  · obtain ⟨p, hp⟩ := inSet?_of_mem_positionalParameters (List.of_mem_zip hpositional).1
    exact ⟨entry.1, p, rfl, rfl, hp⟩

end Invocation

end KeywordEngine
