import KeywordEngine.Proofs.ArgumentBinding
import KeywordEngine.Proofs.Discovery
import Mathlib.Data.List.Sort

/-!
# Accepted arguments

When the elements after a keyword's name are accepted and what they then give to which parameter,
said on the declaration and the elements alone. Nothing here depends on the order in which binding
looks at things or on where it stops.

* `resolvedSet?`: the parameter set in use, chosen at once among all admissible ones.
* `OpenSlots`: the parameters that are left for arguments without a name, told by their positions.
* `Accepted`: the rules that the elements have to obey.
* `readNamed_eq_ok`, `resolveSet_eq_ok`, `openSlots_iff`, `exists_plans_iff`,
  `missing?_eq_none_iff_assigned`: the steps of binding, each against its rule.
* `bindArguments_eq_ok_iff`: binding accepts exactly what obeys the rules.
-/

namespace KeywordEngine

namespace Arguments

/-! ## The rules -/

section Rules

variable (k : KeywordSpec) (elements : List Element)

/-- The sets that contain every named parameter, among the declared sets in the order of their
declaration. Where no set is declared, the one that stands for all is the only candidate. -/
def admissibleSets : List String :=
  (if k.setNames = [] then [allSets] else k.setNames).filter fun set =>
    (namedBy k elements).all fun a => (a.1.inSet? set).isSome

/-- The default set if it is admissible, and else the first admissible one. -/
def resolvedSet? : Option String :=
  k.defaultSet.filter (· ∈ admissibleSets k elements) <|> (admissibleSets k elements).head?

/-- Two parameters have positions in a set, the first one the smaller. -/
def Precedes (set : String) (p q : ParameterSpec) : Prop :=
  ∃ i j, p.position? set = some i ∧ q.position? set = some j ∧ i < j

/-- The parameters that have a position in a set and are not named, by increasing position. -/
structure OpenSlots (set : String) (slots : List ParameterSpec) : Prop where
  mem : ∀ p, p ∈ slots ↔ p ∈ k.parameters ∧ (p.position? set).isSome = true ∧
    p ∉ (namedBy k elements).map (·.1)
  increasing : slots.Pairwise (Precedes set)

/-- The rules for the elements after a keyword's name, where `set` is in use and `slots` are left for
the arguments without a name. -/
structure Accepted (set : String) (slots : List ParameterSpec) : Prop where
  /-- Names are those of parameters, apart from case. -/
  declared : ∀ name argument span, Element.named name argument span ∈ elements →
    ∃ p ∈ k.parameters, Text.sameName p.name name = true
  /-- No parameter is named twice. -/
  once : ((namedBy k elements).map (·.1)).Nodup
  /-- Some set is admissible, and the preferred one is in use. -/
  resolved : resolvedSet? k elements = some set
  places : OpenSlots k elements set slots
  /-- Without a value stand truth values only. -/
  switches : ∀ p, (p, none) ∈ namedBy k elements → p.constraint = .bool
  /-- No argument is left over. -/
  room : (unnamed elements).length ≤ slots.length
  /-- Constants can be fitted to their parameters. -/
  constants : ∀ p e v, (p, some e) ∈ assigned k elements slots → e.constant? = some v →
    ∃ w, p.constraint.coerce v = .ok w
  mandatory : ∀ p ∈ k.parameters, p.mandatoryIn set = true →
    p ∈ (assigned k elements slots).map (·.1)

end Rules

variable {k : KeywordSpec} {elements : List Element} {set : String}

/-! ## Names -/

theorem eq_of_name_eq (hnames : (k.parameters.map (Text.fold ·.name)).Nodup) {p q : ParameterSpec}
    (hp : p ∈ k.parameters) (hq : q ∈ k.parameters) (h : p.name = q.name) : p = q :=
  List.inj_on_of_nodup_map hnames hp hq (congrArg Text.fold h)

/-- Binding tells parameters apart by their names. -/
theorem mem_map_fst_iff (hnames : (k.parameters.map (Text.fold ·.name)).Nodup)
    {l : List (ParameterSpec × Option Expr)} (hl : ∀ a ∈ l, a.1 ∈ k.parameters)
    {p : ParameterSpec} (hp : p ∈ k.parameters) :
    p ∈ l.map (·.1) ↔ ∃ a ∈ l, a.1.name = p.name := by
  rw [List.mem_map]
  exact exists_congr fun a => and_congr_right fun ha =>
    ⟨congrArg _, fun h => eq_of_name_eq hnames (hl a ha) hp h⟩

theorem nodup_names_iff (hnames : (k.parameters.map (Text.fold ·.name)).Nodup)
    {named : List Named} (hnamed : named.map Named.entry = namedBy k elements) :
    (named.map (·.parameter.name)).Nodup ↔ ((namedBy k elements).map (·.1)).Nodup := by
  have hmap : named.map (·.parameter.name) = ((namedBy k elements).map (·.1)).map (·.name) := by
    rw [← hnamed, List.map_map, List.map_map]
    rfl
  rw [hmap]
  refine ⟨List.Nodup.of_map _, fun h => h.map_on fun p hp q hq => ?_⟩
  obtain ⟨a, ha, rfl⟩ := List.mem_map.1 hp
  obtain ⟨b, hb, rfl⟩ := List.mem_map.1 hq
  exact eq_of_name_eq hnames (mem_parameters_of_mem_namedBy ha) (mem_parameters_of_mem_namedBy hb)

/-- The parameter that an element names, with its argument and its place. -/
def asNamed? (k : KeywordSpec) : Element → Option Named
  | .named name argument span => (k.parameter? name).map (⟨·, argument, span⟩)
  | .positional .. => none

theorem entry_asNamed? (elements : List Element) :
    (elements.filterMap (asNamed? k)).map Named.entry = namedBy k elements := by
  rw [namedBy, List.map_filterMap]
  refine List.filterMap_congr fun e _ => ?_
  cases e with
  | positional argument span => rfl
  | named name argument span => simp [asNamed?, Element.named?, Named.entry, Function.comp_def]

/-- Reading the named elements succeeds exactly if each of them names a parameter, and none the same
as another one. -/
theorem readNamed_eq_ok {before named : List Named}
    (hbefore : (before.map (·.parameter.name)).Nodup) :
    readNamed k before elements = .ok named ↔
      (∀ name argument span, Element.named name argument span ∈ elements →
        (k.parameter? name).isSome = true) ∧
      (named.map (·.parameter.name)).Nodup ∧
      named = before ++ elements.filterMap (asNamed? k) := by
  induction elements generalizing before with
  | nil =>
    rw [readNamed, List.filterMap_nil, List.append_nil, Except.ok.injEq, eq_comm]
    constructor
    · rintro rfl
      exact ⟨by simp, hbefore, rfl⟩
    · exact fun h => h.2.2
  | cons e rest ih =>
    cases e with
    | positional argument span =>
      rw [readNamed, ih hbefore, List.filterMap_cons_none rfl]
      simp
    | named name argument span =>
      rw [readNamed]
      cases hp : k.parameter? name with
      | none =>
        constructor
        · simp
        · rintro ⟨hdeclared, -⟩
          have := hdeclared name argument span List.mem_cons_self
          simp [hp] at this
      | some p =>
        have hread : asNamed? k (.named name argument span) = some ⟨p, argument, span⟩ := by
          rw [asNamed?, hp, Option.map_some]
        rw [List.filterMap_cons_some hread, List.append_cons]
        by_cases hdup : p.name ∈ before.map (·.parameter.name)
        · -- the name was read before, and what follows does not take it back
          have hany : before.any (·.parameter.name == p.name) = true := by
            simpa using hdup
          simp only [hany, if_true, reduceCtorEq, false_iff]
          rintro ⟨-, hnodup, rfl⟩
          rw [List.map_append, List.map_append, List.nodup_append, List.nodup_append] at hnodup
          exact hnodup.1.2.2 _ hdup _ (by simp) rfl
        · have hany : before.any (·.parameter.name == p.name) = false := by
            simpa using hdup
          have hnext :
              ((before ++ [(⟨p, argument, span⟩ : Named)]).map (·.parameter.name)).Nodup := by
            rw [List.map_append, List.map_singleton, ← List.concat_eq_append]
            exact hbefore.concat hdup
          simp only [hany, Bool.false_eq_true, if_false]
          rw [ih hnext]
          refine and_congr_left fun _ => ⟨fun h name' argument' span' hmem => ?_,
            fun h name' argument' span' hmem => h _ _ _ (List.mem_cons_of_mem _ hmem)⟩
          obtain heq | hmem := List.mem_cons.1 hmem
          · obtain ⟨rfl, -, -⟩ := Element.named.inj heq
            rw [hp, Option.isSome_some]
          · exact h _ _ _ hmem

/-! ## The parameter set -/

/-- The default set among some sets, or else the first of them. -/
theorem preferred_eq_some {candidates : List String} :
    (k.defaultSet.filter (· ∈ candidates) <|> candidates.head?) = some set ↔
      candidates ≠ [] ∧ preferredSet k candidates = set := by
  unfold preferredSet
  cases hdefault : k.defaultSet.filter (· ∈ candidates) with
  | some default =>
    have hmem : default ∈ candidates := by
      simpa using (Option.filter_eq_some_iff.1 hdefault).2
    simp [List.ne_nil_of_mem hmem]
  | none => cases candidates <;> simp

/-- The set that the named elements choose is the preferred one of those that contain them all. -/
theorem resolveSet_eq_ok
    (hsets : ∀ p ∈ k.parameters, ∃ set, (p.sets.get? set).isSome = true) {named : List Named}
    (hnamed : named.map Named.entry = namedBy k elements) :
    resolveSet k named = .ok set ↔ resolvedSet? k elements = some set := by
  have hfits := fits_eq_all hnamed
  rw [resolvedSet?, preferred_eq_some, admissibleSets, ← hfits]
  unfold resolveSet
  split
  · -- without declared sets the one for all is taken unseen; it contains every parameter
    rename_i hk
    have hall : fits named allSets = true := by
      rw [hfits]
      refine List.all_eq_true.2 fun a ha => ?_
      have hp := mem_parameters_of_mem_namedBy ha
      obtain ⟨set, hset⟩ := hsets a.1 hp
      exact KeywordSpec.inSet?_allSets_of_setNames_eq_nil hk hp hset
    have honly : preferredSet k [allSets] = allSets :=
      List.mem_singleton.1 (preferredSet_mem (List.cons_ne_nil _ _))
    simp [hk, hall, honly]
  · rename_i hk
    have hne : k.setNames ≠ [] := hk
    simp only [Success.map_eq_ok, narrowSets_eq_ok hne, if_neg hne]
    constructor
    · rintro ⟨kept, ⟨rfl, hkept⟩, hset⟩
      exact ⟨hkept, hset⟩
    · rintro ⟨hkept, hset⟩
      exact ⟨_, ⟨rfl, hkept⟩, hset⟩

/-! ## Slots -/

instance (set : String) : Std.Asymm (Precedes set) where
  asymm p q := by
    rintro ⟨i, j, hi, hj, hij⟩ ⟨j', i', hj', hi', hji⟩
    obtain rfl : i = i' := Option.some.inj (hi.symm.trans hi')
    obtain rfl : j = j' := Option.some.inj (hj.symm.trans hj')
    exact UInt32.lt_asymm hij hji

/-- The slots for arguments without a name are determined by the declaration and the elements. -/
theorem OpenSlots.unique {l l' : List ParameterSpec} (h : OpenSlots k elements set l)
    (h' : OpenSlots k elements set l') : l = l' :=
  h.increasing.eq_of_mem_iff h'.increasing fun p => (h.mem p).trans (h'.mem p).symm

/-- Parameters in the order of their positions stand in increasing order, if no two of them share a
position. -/
theorem pairwise_placed {l : List ParameterSpec}
    (h : (l.filterMap (·.position? set)).Nodup) :
    (((l.filterMap fun p => (p.position? set).map (·, p)).mergeSort
      fun a b => a.1 ≤ b.1).map (·.2)).Pairwise (Precedes set) := by
  have hplaced : ∀ a ∈ l.filterMap fun p => (p.position? set).map (·, p),
      a.2.position? set = some a.1 := by
    intro a ha
    obtain ⟨p, -, hp⟩ := List.mem_filterMap.1 ha
    obtain ⟨i, hi, rfl⟩ := Option.map_eq_some_iff.1 hp
    exact hi
  have hkeys : (l.filterMap fun p => (p.position? set).map (·, p)).map (·.1) =
      l.filterMap (·.position? set) := by
    rw [List.map_filterMap]
    refine List.filterMap_congr fun p _ => ?_
    simp [Function.comp_def]
  generalize l.filterMap (fun p => (p.position? set).map (·, p)) = placed at *
  have hsorted : (placed.mergeSort fun a b => a.1 ≤ b.1).Pairwise fun a b => a.1 ≤ b.1 := by
    refine (List.pairwise_mergeSort ?_ ?_ placed).imp of_decide_eq_true
    · intro a b c hab hbc
      exact decide_eq_true (UInt32.le_trans (of_decide_eq_true hab) (of_decide_eq_true hbc))
    · intro a b
      simpa using UInt32.le_total a.1 b.1
  have hdistinct : (placed.mergeSort fun a b => a.1 ≤ b.1).Pairwise fun a b => a.1 ≠ b.1 := by
    rw [← List.pairwise_map (R := (· ≠ ·)) (f := Prod.fst)]
    exact ((List.mergeSort_perm placed _).map _).nodup_iff.2 (hkeys ▸ h)
  -- sorting leaves equal positions side by side, and there are none
  rw [List.pairwise_map]
  refine (hsorted.and hdistinct).imp_of_mem fun {a b} ha hb hab => ?_
  exact ⟨a.1, b.1, hplaced a (List.mem_mergeSort.1 ha), hplaced b (List.mem_mergeSort.1 hb),
    UInt32.lt_of_le_of_ne hab.1 hab.2⟩

/-- The slots that binding fills are the open ones. -/
theorem openSlots_iff (hnames : (k.parameters.map (Text.fold ·.name)).Nodup)
    (hpositions : (k.parameters.filterMap (·.position? set)).Nodup) {named : List Named}
    (hnamed : named.map Named.entry = namedBy k elements) {l : List ParameterSpec} :
    OpenSlots k elements set l ↔ l = slots k named set := by
  have hopen : OpenSlots k elements set (slots k named set) := by
    refine ⟨fun p => ?_, pairwise_placed ?_⟩
    · have hfree (hp : p ∈ k.parameters) : (!named.any (·.parameter.name == p.name)) = true ↔
          p ∉ (namedBy k elements).map (·.1) := by
        rw [mem_map_fst_iff hnames (fun _ => mem_parameters_of_mem_namedBy) hp,
          any_name_eq hnamed]
        simp
      rw [slots, mem_placed, List.mem_filter]
      constructor
      · rintro ⟨⟨hp, hnot⟩, hposition⟩
        exact ⟨hp, hposition, (hfree hp).1 hnot⟩
      · rintro ⟨hp, hposition, hnot⟩
        exact ⟨⟨hp, (hfree hp).2 hnot⟩, hposition⟩
    · exact hpositions.sublist (List.filter_sublist.filterMap _)
  constructor
  · exact fun h => h.unique hopen
  · rintro rfl
    exact hopen

/-! ## Plans -/

theorem exists_plan_none_iff {p : ParameterSpec} :
    (∃ plan, Plans (.ofParameter (p, none)) plan) ↔ p.constraint = .bool := by
  unfold Assignment.ofParameter
  simp only [plans_switch_iff, exists_and_left, exists_eq', and_true]
  cases p.constraint <;> simp [TypeConstraint.isSwitch]

theorem exists_plan_some_iff {p : ParameterSpec} {e : Expr} :
    (∃ plan, Plans (.ofParameter (p, some e)) plan) ↔
      ∀ v, e.constant? = some v → ∃ w, p.constraint.coerce v = .ok w :=
  exists_plans_expression_iff

/-- There are plans for all that gets a value exactly if bare names are those of truth values and
constants can be fitted. -/
theorem exists_plans_iff {slots : List ParameterSpec} :
    (∃ plans, List.Forall₂ Plans ((assigned k elements slots).map .ofParameter) plans) ↔
      (∀ p, (p, none) ∈ namedBy k elements → p.constraint = .bool) ∧
      ∀ p e v, (p, some e) ∈ assigned k elements slots → e.constant? = some v →
        ∃ w, p.constraint.coerce v = .ok w := by
  have hnone {p : ParameterSpec} :
      (p, none) ∈ assigned k elements slots ↔ (p, none) ∈ namedBy k elements := by
    rw [assigned, List.mem_append, or_iff_left]
    intro hmem
    have := (List.of_mem_zip hmem).2
    simp at this
  constructor
  · rintro ⟨plans, hplans⟩
    have hitem : ∀ a ∈ assigned k elements slots, ∃ plan, Plans (.ofParameter a) plan := by
      intro a ha
      obtain ⟨plan, -, hplan⟩ := Success.exists_of_forall₂ hplans (List.mem_map_of_mem ha)
      exact ⟨plan, hplan⟩
    exact ⟨fun p hp => exists_plan_none_iff.1 (hitem _ (hnone.2 hp)),
      fun p e v hp => exists_plan_some_iff.1 (hitem _ hp) v⟩
  · rintro ⟨hswitches, hconstants⟩
    refine Success.exists_forall₂ fun a ha => ?_
    obtain ⟨⟨p, source⟩, hp, rfl⟩ := List.mem_map.1 ha
    cases source with
    | none => exact exists_plan_none_iff.2 (hswitches p (hnone.1 hp))
    | some e => exact exists_plan_some_iff.2 fun v => hconstants p e v hp

/-- Nothing mandatory is missing exactly if every mandatory parameter gets a value. -/
theorem missing?_eq_none_iff_assigned (hnames : (k.parameters.map (Text.fold ·.name)).Nodup)
    {slots : List ParameterSpec} (hslots : ∀ p ∈ slots, p ∈ k.parameters) {plans : List Plan}
    (hplans : List.Forall₂ Plans ((assigned k elements slots).map .ofParameter) plans) :
    missing? k set plans = none ↔
      ∀ p ∈ k.parameters, p.mandatoryIn set = true →
        p ∈ (assigned k elements slots).map (·.1) := by
  have hdeclared : ∀ a ∈ assigned k elements slots, a.1 ∈ k.parameters := by
    intro a ha
    obtain ha | ha := List.mem_append.1 ha
    · exact mem_parameters_of_mem_namedBy ha
    · exact hslots _ (List.of_mem_zip ha).1
  have htargets := targets_of_plans hplans
  rw [List.map_map] at htargets
  rw [missing?_eq_none_iff]
  refine forall₃_congr fun p hp _ => ?_
  rw [mem_map_fst_iff hnames hdeclared hp, ← List.mem_map, htargets, List.mem_map]
  rfl

/-! ## Binding -/

theorem bindArguments_eq_ok_accepted (hvalid : k.validate = .ok ())
    (hnames : (k.parameters.map (Text.fold ·.name)).Nodup)
    (hsets : ∀ p ∈ k.parameters, ∃ set, (p.sets.get? set).isSome = true) {span : Span}
    {bound : BoundArguments} :
    bindArguments k elements span = .ok bound ↔
      ∃ slots, Accepted k elements bound.set slots ∧
        List.Forall₂ Plans ((assigned k elements slots).map .ofParameter) bound.arguments := by
  have hpositions := (KeywordSpec.validate_eq_ok.1 hvalid).2.2.2.2
  have hslots {l : List ParameterSpec} (h : OpenSlots k elements bound.set l) :
      ∀ p ∈ l, p ∈ k.parameters := fun p hp => ((h.mem p).1 hp).1
  rw [bindArguments_eq_ok]
  constructor
  · rintro ⟨named, hnamed, hset, hroom, hplans, hmissing⟩
    have hentries : named.map Named.entry = namedBy k elements := entries_of_readNamed hnamed
    obtain ⟨hdeclared, hnodup, -⟩ := (readNamed_eq_ok (by simp)).1 hnamed
    obtain ⟨hswitches, hconstants⟩ := exists_plans_iff.1 ⟨_, hplans⟩
    have hopen := (openSlots_iff hnames (hpositions bound.set) hentries).2 rfl
    exact ⟨slots k named bound.set,
      { declared := fun name argument span h => List.find?_isSome.1 (hdeclared name argument span h)
        once := (nodup_names_iff hnames hentries).1 hnodup
        resolved := (resolveSet_eq_ok hsets hentries).1 hset
        places := hopen
        switches := hswitches
        room := hroom
        constants := hconstants
        mandatory := (missing?_eq_none_iff_assigned hnames (hslots hopen) hplans).1 hmissing },
      hplans⟩
  · rintro ⟨l, h, hplans⟩
    have hentries := entry_asNamed? (k := k) elements
    have hmissing := (missing?_eq_none_iff_assigned hnames (hslots h.places) hplans).2 h.mandatory
    obtain rfl := (openSlots_iff hnames (hpositions bound.set) hentries).1 h.places
    refine ⟨_, (readNamed_eq_ok (by simp)).2 ⟨?_, (nodup_names_iff hnames hentries).2 h.once, rfl⟩,
      (resolveSet_eq_ok hsets hentries).2 h.resolved, h.room, hplans, hmissing⟩
    exact fun name argument span hmem => List.find?_isSome.2 (h.declared name argument span hmem)

namespace Copy

/-- What is copied, if it is found by its path. -/
def path : ParameterSpec := ⟨"Path", "string", .empty, .ofList [("ByPath", ⟨some 0, true⟩)]⟩

/-- What is copied, if it is found by its number. -/
def number : ParameterSpec := ⟨"Id", "int", .empty, .ofList [("ById", ⟨some 0, true⟩)]⟩

/-- Where it is copied to; last where numbers are used. -/
def target : ParameterSpec :=
  ⟨"To", "string", .empty, .ofList [(allSets, ⟨some 1, true⟩), ("ById", ⟨some 5, true⟩)]⟩

/-- Whether anything there is replaced. -/
def force : ParameterSpec := ⟨"Force", "bool", .empty, .ofList [(allSets, ⟨none, false⟩)]⟩

/-- A keyword with two ways to say what is copied. -/
def spec : KeywordSpec :=
  ⟨"Copy", .command, .optionalMany, some "ByPath", [path, number, target, force], [], [], false,
    ⟨⟨8⟩, "Files", "1.0"⟩⟩

/-- Copying by number. -/
def byId (given : Value) : List Element :=
  [.positional (.literal (.string "b")) default, .named "Force" none default,
    .named "Id" (some (.literal given)) default]

theorem validate_spec : spec.validate = .ok () := by decide +kernel

theorem nodup_names : (spec.parameters.map (Text.fold ·.name)).Nodup := by decide +kernel

theorem exists_set : ∀ p ∈ spec.parameters, ∃ set, (p.sets.get? set).isSome = true := by
  have hfirst : ∀ p ∈ spec.parameters, ∃ set ∈ p.sets.keys, (p.sets.get? set).isSome = true := by
    decide +kernel
  intro p hp
  obtain ⟨set, -, hset⟩ := hfirst p hp
  exact ⟨set, hset⟩

theorem bindArguments_number : ∃ bound, bindArguments spec (byId (.int 7)) default = .ok bound ∧
    bound.set = "ById" ∧ bound.arguments.map (·.target) = ["Force", "Id", "To"] := by
  have hbound : (bindArguments spec (byId (.int 7)) default).toOption.map
      (fun bound => (bound.set, bound.arguments.map (·.target))) =
        some ("ById", ["Force", "Id", "To"]) := by
    decide +kernel
  cases h : bindArguments spec (byId (.int 7)) default with
  | error e => simp [h, Except.toOption] at hbound
  | ok bound =>
    simp only [h, Except.toOption, Option.map_some, Option.some.injEq, Prod.mk.injEq] at hbound
    exact ⟨bound, rfl, hbound⟩

theorem bindArguments_text :
    ¬ ∃ bound, bindArguments spec (byId (.string "seven")) default = .ok bound := by
  have hfails : (bindArguments spec (byId (.string "seven")) default).isOk = false := by
    decide +kernel
  rintro ⟨bound, h⟩
  simp [h, Except.isOk, Except.toBool] at hfails

end Copy

/-- Binding accepts exactly the elements that obey the rules. It then gives the set in use with one
plan for each parameter that gets a value, the named ones in source order before the others in the
order of their positions. -/
theorem bindArguments_eq_ok_iff (hvalid : k.validate = .ok ())
    (hnames : (k.parameters.map (Text.fold ·.name)).Nodup)
    (hsets : ∀ p ∈ k.parameters, ∃ set, (p.sets.get? set).isSome = true)
    (elements : List Element) (span : Span) :
    ((∃ bound, bindArguments k elements span = .ok bound) ↔
      ∃ set slots, Accepted k elements set slots) ∧
    ∀ bound, bindArguments k elements span = .ok bound ↔
      ∃ slots, Accepted k elements bound.set slots ∧
        List.Forall₂ Plans ((assigned k elements slots).map .ofParameter) bound.arguments := by
  refine ⟨?_, fun bound => bindArguments_eq_ok_accepted hvalid hnames hsets⟩
  constructor
  · rintro ⟨bound, h⟩
    obtain ⟨slots, haccepted, -⟩ := (bindArguments_eq_ok_accepted hvalid hnames hsets).1 h
    exact ⟨bound.set, slots, haccepted⟩
  · rintro ⟨set, slots, h⟩
    obtain ⟨plans, hplans⟩ := exists_plans_iff.2 ⟨h.switches, h.constants⟩
    exact ⟨⟨set, plans⟩,
      (bindArguments_eq_ok_accepted hvalid hnames hsets).2 ⟨slots, h, hplans⟩⟩

/-- Copying by number takes the set that is not the default one. What is no number is refused. -/
theorem bindArguments_eq_ok_iff_copy :
    (∃ slots plans, Accepted Copy.spec (Copy.byId (.int 7)) "ById" slots ∧
      List.Forall₂ Plans ((assigned Copy.spec (Copy.byId (.int 7)) slots).map .ofParameter) plans ∧
      plans.map (·.target) = ["Force", "Id", "To"]) ∧
    ¬ ∃ set slots, Accepted Copy.spec (Copy.byId (.string "seven")) set slots := by
  have hiff := bindArguments_eq_ok_iff Copy.validate_spec Copy.nodup_names Copy.exists_set
  constructor
  · obtain ⟨⟨_, plans⟩, hbound, rfl, htargets⟩ := Copy.bindArguments_number
    obtain ⟨slots, haccepted, hplans⟩ := ((hiff _ default).2 _).1 hbound
    exact ⟨slots, plans, haccepted, hplans, htargets⟩
  · exact fun h => Copy.bindArguments_text ((hiff _ default).1.2 h)

end Arguments

end KeywordEngine
