import KeywordEngine.Proofs.Addressing
import KeywordEngine.Proofs.Machine

/-!
# Hashtable bodies

A hashtable body is accepted for what it says, however it is spelled: if each of its entries names a
declared property, no two of them the same one, constants fit and nothing mandatory is left out. The
properties that it gives are assigned all at once or not at all.

* `AcceptedBody`: the bodies that are accepted, if no two properties of the keyword have the same
  name.
* `resolvePlans_eq_ok`, `resolvePlans_eq_error`: the values of plans, or the first failure.
* `AllOrNothing`: what assigning properties may do to a context.
* `planProperties_exact`: which bodies are accepted, the plans for them, and what these do.
-/

namespace KeywordEngine

/-! ## Entries -/

/-- The key of an entry is a literal text with the name of the property, apart from case. -/
def HashtableEntry.Names (entry : HashtableEntry) (p : PropertySpec) : Prop :=
  ∃ key, entry.key = .literal (.string key) ∧ Text.sameName p.name key = true

theorem HashtableEntry.names_iff {entry : HashtableEntry} {p : PropertySpec} :
    entry.Names p ↔ ∃ key, literalKey? entry.key = some key ∧ Text.sameName p.name key = true := by
  unfold Names literalKey?
  refine exists_congr fun key => and_congr_left fun _ => ?_
  split
  · rename_i s hs
    rw [hs, Expr.literal.injEq, Value.string.injEq, Option.some.injEq]
  · rename_i hother
    exact ⟨fun h => absurd h (hother key), nofun⟩

/-- A plan for the property that an entry names, under the declared spelling of its name. -/
def PlannedAs (k : KeywordSpec) (entry : HashtableEntry) (plan : Plan) : Prop :=
  ∃ p ∈ k.properties, entry.Names p ∧ Plans ⟨p.name, p.constraint, some entry.value⟩ plan

/-- Every entry of a body names a declared property, no two name the same one, constants fit and
every mandatory property is named. -/
structure AcceptedBody (k : KeywordSpec) (entries : List HashtableEntry) : Prop where
  declared : ∀ entry ∈ entries, ∃ p ∈ k.properties, entry.Names p
  once : entries.Pairwise fun a b => ∀ p ∈ k.properties, a.Names p → ¬ b.Names p
  constants : ∀ entry ∈ entries, ∀ p ∈ k.properties, entry.Names p →
    ∀ v, entry.value.constant? = some v → ∃ w, p.constraint.coerce v = .ok w
  mandatory : ∀ p ∈ k.properties, p.mandatory = true → ∃ entry ∈ entries, entry.Names p

/-- There are plans for what is accepted. -/
theorem AcceptedBody.exists_plans {k : KeywordSpec} {entries : List HashtableEntry}
    (h : AcceptedBody k entries) : ∃ plans, List.Forall₂ (PlannedAs k) entries plans := by
  refine Success.exists_forall₂ fun entry hentry => ?_
  obtain ⟨p, hp, hname⟩ := h.declared entry hentry
  have hplanned : ∃ plan, Plans ⟨p.name, p.constraint, some entry.value⟩ plan :=
    exists_plans_expression_iff.2 (h.constants entry hentry p hp hname)
  obtain ⟨plan, hplan⟩ := hplanned
  exact ⟨plan, p, hp, hname, hplan⟩

section Accepted

variable {k : KeywordSpec} (hnames : (k.properties.map (Text.fold ·.name)).Nodup)

include hnames

/-- Where names differ, a key finds the one property that it names. -/
theorem property?_eq_some_iff {key : String} {p : PropertySpec} :
    k.property? key = some p ↔ p ∈ k.properties ∧ Text.sameName p.name key = true := by
  constructor
  · intro h
    exact ⟨List.mem_of_find?_eq_some h, Text.sameName_iff.2 (fold_of_find?_name h)⟩
  · rintro ⟨hp, hsame⟩
    rw [← KeywordSpec.property?_eq_of_fold_eq (Text.sameName_iff.1 hsame)]
    exact find?_name_of_nodup hnames hp

theorem plansEntry_iff {entry : HashtableEntry} {plan : Plan} :
    PlansEntry k entry plan ↔ PlannedAs k entry plan := by
  simp only [PlansEntry, PlannedAs, HashtableEntry.assignment?, HashtableEntry.names_iff,
    Option.map_eq_some_iff, Option.bind_eq_some_iff, property?_eq_some_iff hnames]
  constructor
  · rintro ⟨-, ⟨p, ⟨key, hkey, hp, hsame⟩, rfl⟩, hplan⟩
    exact ⟨p, hp, ⟨key, hkey, hsame⟩, hplan⟩
  · rintro ⟨p, hp, ⟨key, hkey, hsame⟩, hplan⟩
    exact ⟨_, ⟨p, ⟨key, hkey, hp, hsame⟩, rfl⟩, hplan⟩

/-- An entry names one property at most. -/
theorem eq_of_names {entry : HashtableEntry} {p q : PropertySpec} (hp : p ∈ k.properties)
    (hq : q ∈ k.properties) (h : entry.Names p) (h' : entry.Names q) : p = q := by
  obtain ⟨key, hkey, hsame⟩ := HashtableEntry.names_iff.1 h
  obtain ⟨key', hkey', hsame'⟩ := HashtableEntry.names_iff.1 h'
  obtain rfl := Option.some.inj (hkey.symm.trans hkey')
  have hfold := (Text.sameName_iff.1 hsame).trans (Text.sameName_iff.1 hsame').symm
  exact List.inj_on_of_nodup_map hnames hp hq hfold

/-- A plan for an entry has the name of the property that the entry names. -/
theorem PlannedAs.target_eq_iff {entry : HashtableEntry} {plan : Plan}
    (h : PlannedAs k entry plan) {p : PropertySpec} (hp : p ∈ k.properties) :
    plan.target = p.name ↔ entry.Names p := by
  obtain ⟨q, hq, hentry, hplan⟩ := h
  rw [hplan.target_eq]
  constructor
  · intro hname
    rwa [← List.inj_on_of_nodup_map hnames hq hp (congrArg Text.fold hname)]
  · intro hentry'
    rw [eq_of_names hnames hq hp hentry hentry']

/-- A body with plans of different names, among them all mandatory ones, is accepted. -/
theorem acceptedBody_of_planned {entries : List HashtableEntry} {plans : List Plan}
    (hplans : List.Forall₂ (PlannedAs k) entries plans) (hnodup : (plans.map (·.target)).Nodup)
    (hmandatory : ∀ p ∈ k.properties, p.mandatory = true → ∃ plan ∈ plans, plan.target = p.name) :
    AcceptedBody k entries where
  declared entry hentry := by
    obtain ⟨plan, -, p, hp, hname, -⟩ := Success.exists_of_forall₂ hplans hentry
    exact ⟨p, hp, hname⟩
  once := by
    rw [List.Nodup, List.pairwise_map] at hnodup
    refine Success.pairwise_of_forall₂ hplans hnodup fun a b plan plan' ha hb hne p hp hna hnb => ?_
    have htarget := (ha.target_eq_iff hnames hp).2 hna
    exact hne (htarget.trans ((hb.target_eq_iff hnames hp).2 hnb).symm)
  constants entry hentry p hp hname := by
    obtain ⟨plan, -, q, hq, hname', hplan⟩ := Success.exists_of_forall₂ hplans hentry
    obtain rfl := eq_of_names hnames hp hq hname hname'
    exact exists_plans_expression_iff.1 ⟨plan, hplan⟩
  mandatory p hp hp' := by
    obtain ⟨plan, hplan, htarget⟩ := hmandatory p hp hp'
    obtain ⟨entry, hentry, hplanned⟩ := Success.exists_of_forall₂ hplans.flip hplan
    exact ⟨entry, hentry, (PlannedAs.target_eq_iff hnames hplanned hp).1 htarget⟩

/-- Plans for different properties have different names. -/
theorem AcceptedBody.nodup_targets {entries : List HashtableEntry} {plans : List Plan}
    (h : AcceptedBody k entries) (hplans : List.Forall₂ (PlannedAs k) entries plans) :
    (plans.map (·.target)).Nodup := by
  rw [List.Nodup, List.pairwise_map]
  refine Success.pairwise_of_forall₂ hplans.flip h.once fun plan plan' a b ha hb hne htarget => ?_
  obtain ⟨p, hp, hname, hplan⟩ := ha
  rw [hplan.target_eq] at htarget
  exact hne p hp hname ((PlannedAs.target_eq_iff hnames hb hp).1 htarget.symm)

theorem planProperties_eq_ok_of_nodup {entries : List HashtableEntry} {span : Span}
    {plans : List Plan} :
    planProperties k entries span = .ok plans ↔
      AcceptedBody k entries ∧ List.Forall₂ (PlannedAs k) entries plans := by
  have hiff : PlansEntry k = PlannedAs k := by
    funext entry plan
    exact propext (plansEntry_iff hnames)
  rw [planProperties_eq_ok, hiff]
  constructor
  · rintro ⟨hplans, hnodup, hmandatory⟩
    exact ⟨acceptedBody_of_planned hnames hplans hnodup hmandatory, hplans⟩
  · rintro ⟨haccepted, hplans⟩
    refine ⟨hplans, haccepted.nodup_targets hnames hplans, fun p hp hp' => ?_⟩
    obtain ⟨entry, hentry, hname⟩ := haccepted.mandatory p hp hp'
    obtain ⟨plan, hplan, hplanned⟩ := Success.exists_of_forall₂ hplans hentry
    exact ⟨plan, hplan, (hplanned.target_eq_iff hnames hp).2 hname⟩

end Accepted

/-! ## Assigning properties -/

section Assigning

variable {vars : Variables}

/-- The values of plans, each under the name of its target. -/
theorem resolvePlans_eq_ok {plans : List Plan} {values : List (String × Value)} :
    resolvePlans vars plans = .ok values ↔
      List.Forall₂ (fun plan e => e.1 = plan.target ∧ plan.resolve vars = .ok e.2) plans values := by
  induction plans generalizing values with
  | nil => rw [resolvePlans, List.forall₂_nil_left_iff, Except.ok.injEq, eq_comm]
  | cons plan rest ih =>
    simp only [resolvePlans, Success.bind_eq_ok, Success.pure_eq_ok, ih,
      List.forall₂_cons_left_iff]
    constructor
    · rintro ⟨v, hv, others, hothers, rfl⟩
      exact ⟨(plan.target, v), others, ⟨rfl, hv⟩, hothers, rfl⟩
    · rintro ⟨⟨target, v⟩, others, ⟨rfl, hv⟩, hothers, rfl⟩
      exact ⟨v, hv, others, hothers, rfl⟩

/-- If plans have no values, the first one without a value says why. -/
theorem resolvePlans_eq_error {plans : List Plan} {e : ExecutionError}
    (h : resolvePlans vars plans = .error e) :
    ∃ before plan after, plans = before ++ plan :: after ∧
      (∀ p ∈ before, ∃ v, p.resolve vars = .ok v) ∧ plan.resolve vars = .error e := by
  induction plans with
  | nil => cases h
  | cons plan rest ih =>
    rw [resolvePlans] at h
    cases hplan : plan.resolve vars with
    | error e' =>
      rw [hplan] at h
      cases h
      exact ⟨[], plan, rest, rfl, by simp, hplan⟩
    | ok v =>
      rw [hplan, Success.ok_bind] at h
      cases hrest : resolvePlans vars rest with
      | ok values => simp [hrest, pure, Except.pure] at h
      | error e' =>
        rw [hrest] at h
        cases h
        obtain ⟨before, failing, after, rfl, hbefore, hfailing⟩ := ih hrest
        exact ⟨plan :: before, failing, after, rfl,
          List.forall_mem_cons.2 ⟨⟨v, hplan⟩, hbefore⟩, hfailing⟩

/-- What assigning properties may do to a context: all of them get their values, or the context
stays as it is. No hook is called. -/
inductive AllOrNothing (c : ExecutionContext) (plans : List Plan) :
    Outcome ExecutionContext ExecutionError Unit → Prop
  /-- The first plan without a value decides the error. -/
  | unresolved {before after : List Plan} {plan : Plan} {e : ExecutionError}
      (split : plans = before ++ plan :: after)
      (resolved : ∀ p ∈ before, ∃ v, p.resolve c.vars = .ok v)
      (failed : plan.resolve c.vars = .error e) : AllOrNothing c plans ⟨c, [], .error e⟩
  /-- There is no instance to give properties to. -/
  | unpending (resolved : ∀ p ∈ plans, ∃ v, p.resolve c.vars = .ok v)
      (pending : c.pending = none) : AllOrNothing c plans ⟨c, [], .error .noPendingInstance⟩
  /-- Exactly the planned properties change. -/
  | assigned {i : Instance} {properties : ValueMap} (pending : c.pending = some i)
      (planned : ∀ p ∈ plans, ∃ v, p.resolve c.vars = .ok v ∧ properties.get? p.target = some v)
      (others : ∀ name, name ∉ plans.map (·.target) →
        properties.get? name = i.properties.get? name) :
      AllOrNothing c plans ⟨{ c with pending := some { i with properties } }, [], .ok ()⟩

theorem targets_of_resolvePlans {plans : List Plan} {values : List (String × Value)}
    (h : resolvePlans vars plans = .ok values) : values.map (·.1) = plans.map (·.target) := by
  have hvalues := resolvePlans_eq_ok.1 h
  clear h
  induction hvalues with
  | nil => rfl
  | cons he _ ih => rw [List.map_cons, List.map_cons, he.1, ih]

/-- Plans with different names are assigned all or none. -/
theorem allOrNothing_assignProperties {plans : List Plan} (hnodup : (plans.map (·.target)).Nodup)
    (bindings : Bindings) (c : ExecutionContext) :
    AllOrNothing c plans (c.step bindings (.assignProperties plans)) := by
  cases hvalues : resolvePlans c.vars plans with
  | error e =>
    obtain ⟨before, plan, after, hsplit, hbefore, hplan⟩ := resolvePlans_eq_error hvalues
    rw [ExecutionContext.step_assignProperties, hvalues]
    exact .unresolved hsplit hbefore hplan
  | ok values =>
    have htargets := targets_of_resolvePlans hvalues
    have hplans := resolvePlans_eq_ok.1 hvalues
    cases hpending : c.pending with
    | none =>
      rw [ExecutionContext.step_assignProperties, hvalues, hpending]
      refine .unpending (fun p hp => ?_) hpending
      obtain ⟨e, -, -, he⟩ := Success.exists_of_forall₂ hplans hp
      exact ⟨e.2, he⟩
    | some i =>
      rw [ExecutionContext.step_assignProperties, hvalues, hpending]
      refine .assigned hpending (fun p hp => ?_) fun name hname => ?_
      · obtain ⟨⟨target, v⟩, he, rfl, hv⟩ := Success.exists_of_forall₂ hplans hp
        exact ⟨v, hv, SortedMap.get?_insertMany_of_mem _ (htargets ▸ hnodup) he⟩
      · exact SortedMap.get?_insertMany_of_notMem _ (htargets ▸ hname)

end Assigning

/-! ## Bodies -/

namespace Mailbox

/-- The name of a mailbox. -/
def nameProperty : PropertySpec := ⟨"Name", "string", true, .empty⟩

/-- The number of letters that fit. -/
def quota : PropertySpec := ⟨"Quota", "int", false, .empty⟩

/-- A keyword with a mandatory name and a quota. -/
def spec : KeywordSpec :=
  ⟨"Mailbox", .hashtable, .optionalMany, none, [], [nameProperty, quota], [], false,
    ⟨⟨6⟩, "Mail", "1.0"⟩⟩

/-- The quota of a mailbox stands in a variable. -/
def quotaEntry : HashtableEntry := ⟨.literal (.string "QUOTA"), .readVariable "limit", .ofLine 2⟩

/-- Its name is a constant. -/
def nameEntry : HashtableEntry := ⟨.literal (.string "name"), .literal (.string "inbox"), .ofLine 3⟩

theorem nodup_names : (spec.properties.map (Text.fold ·.name)).Nodup := by decide +kernel

theorem names_quota : quotaEntry.Names quota :=
  ⟨"QUOTA", rfl, Text.sameName_of_toList (by decide)⟩

theorem names_name : nameEntry.Names nameProperty :=
  ⟨"name", rfl, Text.sameName_of_toList (by decide)⟩

theorem accepted : AcceptedBody spec [quotaEntry, nameEntry] where
  declared := by
    simp only [List.forall_mem_cons]
    exact ⟨⟨quota, by simp [spec], names_quota⟩, ⟨nameProperty, by simp [spec], names_name⟩, nofun⟩
  once := by
    refine List.pairwise_pair.2 fun p hp hquota hname => ?_
    have heq : nameProperty = quota :=
      (eq_of_names nodup_names (by simp [spec]) hp names_name hname).trans
        (eq_of_names nodup_names (by simp [spec]) hp names_quota hquota).symm
    exact absurd (congrArg PropertySpec.name heq) (by decide)
  constants := by
    simp only [List.forall_mem_cons]
    refine ⟨fun p hp hentry v hv => ?_, fun p hp hentry v hv => ?_, nofun⟩
    · cases hv
    · obtain rfl := eq_of_names nodup_names (by simp [spec]) hp names_name hentry
      cases hv
      exact ⟨.string "inbox", by with_unfolding_all rfl⟩
  mandatory p hp hmandatory := by
    obtain rfl | rfl : p = nameProperty ∨ p = quota := by simpa [spec] using hp
    · exact ⟨nameEntry, by simp, names_name⟩
    · cases hmandatory

end Mailbox

/-- If no two properties of a keyword have the same name, a hashtable body is accepted if and only if
each of its entries names a property, no two name the same one, constants fit and nothing mandatory
is left out. There is then one plan per entry, in the order of the entries, for the property that the
entry names, and what these plans do to any context they do completely or not at all. -/
theorem planProperties_exact {k : KeywordSpec} (hnames : (k.properties.map (Text.fold ·.name)).Nodup)
    (entries : List HashtableEntry) (span : Span) :
    ((∃ plans, planProperties k entries span = .ok plans) ↔ AcceptedBody k entries) ∧
      ∀ plans, planProperties k entries span = .ok plans →
        List.Forall₂ (PlannedAs k) entries plans ∧
          ∀ bindings c, AllOrNothing c plans (c.step bindings (.assignProperties plans)) := by
  simp only [planProperties_eq_ok_of_nodup hnames]
  constructor
  · constructor
    · rintro ⟨plans, haccepted, -⟩
      exact haccepted
    · intro haccepted
      obtain ⟨plans, hplans⟩ := haccepted.exists_plans
      exact ⟨plans, haccepted, hplans⟩
  · rintro plans ⟨haccepted, hplans⟩
    exact ⟨hplans, allOrNothing_assignProperties (haccepted.nodup_targets hnames hplans)⟩

/-- The body of the mailbox is accepted in spite of its spelling, and has plans under the declared
names. -/
theorem planProperties_exact_mailbox :
    (Mailbox.spec.properties.map (Text.fold ·.name)).Nodup ∧
      ∃ plans, planProperties Mailbox.spec [Mailbox.quotaEntry, Mailbox.nameEntry] default =
          .ok plans ∧
        plans.map (·.target) = ["Quota", "Name"] ∧
        ∀ bindings c, AllOrNothing c plans (c.step bindings (.assignProperties plans)) := by
  obtain ⟨hiff, hplanned⟩ :=
    planProperties_exact Mailbox.nodup_names [Mailbox.quotaEntry, Mailbox.nameEntry] default
  obtain ⟨plans, hplans⟩ := hiff.2 Mailbox.accepted
  obtain ⟨hmatch, hstep⟩ := hplanned plans hplans
  refine ⟨Mailbox.nodup_names, plans, hplans, ?_, hstep⟩
  simp only [List.forall₂_cons_left_iff, List.forall₂_nil_left_iff] at hmatch
  obtain ⟨forQuota, -, hquota, ⟨forName, -, hname, rfl, rfl⟩, rfl⟩ := hmatch
  have hfirst : forQuota.target = "Quota" :=
    (hquota.target_eq_iff Mailbox.nodup_names (by simp [Mailbox.spec])).2 Mailbox.names_quota
  have hsecond : forName.target = "Name" :=
    (hname.target_eq_iff Mailbox.nodup_names (by simp [Mailbox.spec])).2 Mailbox.names_name
  rw [List.map_cons, List.map_cons, List.map_nil, hfirst, hsecond]

end KeywordEngine
