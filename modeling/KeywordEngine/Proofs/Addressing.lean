import KeywordEngine.Proofs.ArgumentBinding
import KeywordEngine.Proofs.Forest
import Mathlib.Data.List.Dedup

/-!
# Addressing by name

A lookup takes the first child, parameter or property whose name fits apart from case. The children
of a discovered keyword are all found under their names. A parameter or property is not if another
of the same name, apart from case, stands before it; and if the two names are not the same in case
as well, then what is mandatory of the later one cannot be given by name at all.

* `Addressed`: each item of a list is found under its own name.
* `reached_of_bindArguments`: accepted arguments give what is mandatory under its exact name or by
  position.
* `exists_planProperties_iff`: when a hashtable body is accepted at all.
* `addressing_of_discovered`: what is found in discovered keywords, and what follows for their
  invocations.
-/

namespace KeywordEngine

/-! ## Lists of named items -/

section Named

variable {α : Type} {name : α → String} {l : List α}

/-- Each item of a list is the first one of its name, apart from case. -/
def Addressed (name : α → String) (l : List α) : Prop :=
  ∀ i a, l[i]? = some a → l.findIdx? (fun b => Text.sameName (name b) (name a)) = some i

theorem addressed_iff_nodup : Addressed name l ↔ (l.map fun a => Text.fold (name a)).Nodup := by
  rw [List.Nodup, List.pairwise_map, List.pairwise_iff_getElem]
  constructor
  · intro h i j hi hj hij hfold
    obtain ⟨_, -, hfirst⟩ :=
      List.findIdx?_eq_some_iff_getElem.1 (h j l[j] (List.getElem?_eq_getElem hj))
    exact hfirst i hij (Text.sameName_iff.2 hfold)
  · intro h i a ha
    obtain ⟨hi, rfl⟩ := List.getElem?_eq_some_iff.1 ha
    refine List.findIdx?_eq_some_iff_getElem.2 ⟨hi, Text.sameName_refl _, fun j hj hsame => ?_⟩
    exact h j i (Nat.lt_trans hj hi) hi hj (Text.sameName_iff.1 hsame)

theorem fold_of_find?_name {s : String} {a : α}
    (h : l.find? (fun b => Text.sameName (name b) s) = some a) :
    Text.fold (name a) = Text.fold s := by
  have hsame := List.find?_some h
  exact Text.sameName_iff.1 hsame

/-- An item of a list without repeated names is what a lookup of its name finds. -/
theorem find?_name_of_nodup (h : (l.map fun a => Text.fold (name a)).Nodup) {a : α} (ha : a ∈ l) :
    l.find? (fun b => Text.sameName (name b) (name a)) = some a := by
  cases hfound : l.find? (fun b => Text.sameName (name b) (name a)) with
  | none => simpa using List.find?_eq_none.1 hfound a ha
  | some b =>
    rw [List.inj_on_of_nodup_map h (List.mem_of_find?_eq_some hfound) ha
      (fold_of_find?_name hfound)]

/-- A lookup does not tell names apart that differ in case only. -/
theorem find?_name_congr {s t : String} (h : Text.fold s = Text.fold t) :
    l.find? (fun b => Text.sameName (name b) s) = l.find? fun b => Text.sameName (name b) t := by
  simp only [Text.sameName, h]

end Named

namespace KeywordSpec

variable {k : KeywordSpec}

theorem parameter?_eq_of_fold_eq {s t : String} (h : Text.fold s = Text.fold t) :
    k.parameter? s = k.parameter? t := find?_name_congr h

theorem property?_eq_of_fold_eq {s t : String} (h : Text.fold s = Text.fold t) :
    k.property? s = k.property? t := find?_name_congr h

/-- What is found under some name is found under its own name. -/
theorem parameter?_name {s : String} {p : ParameterSpec} (h : k.parameter? s = some p) :
    k.parameter? p.name = some p := by
  rw [parameter?_eq_of_fold_eq (fold_of_find?_name h), h]

theorem property?_name {s : String} {p : PropertySpec} (h : k.property? s = some p) :
    k.property? p.name = some p := by
  rw [property?_eq_of_fold_eq (fold_of_find?_name h), h]

end KeywordSpec

/-! ## Arguments -/

namespace Arguments

variable {k : KeywordSpec}

/-- A named element is for the parameter that is found under that parameter's name. -/
theorem parameter?_of_mem_namedBy {elements : List Element} {a : ParameterSpec × Option Expr}
    (ha : a ∈ namedBy k elements) : k.parameter? a.1.name = some a.1 := by
  obtain ⟨e, -, he⟩ := List.mem_filterMap.1 ha
  cases e with
  | positional argument span => cases he
  | named name argument span =>
    obtain ⟨p, hp, rfl⟩ := Option.map_eq_some_iff.1 he
    exact KeywordSpec.parameter?_name hp

/-- Accepted arguments give what is mandatory under its exact name or by position. -/
theorem reached_of_bindArguments {elements : List Element} {span : Span} {bound : BoundArguments}
    (h : bindArguments k elements span = .ok bound) {p : ParameterSpec} (hp : p ∈ k.parameters)
    (hmandatory : p.mandatoryIn bound.set = true) :
    (∃ q, k.parameter? p.name = some q ∧ q.name = p.name) ∨
      ∃ q ∈ k.parameters, q.name = p.name ∧ (q.position? bound.set).isSome = true := by
  obtain ⟨named, hnamed, -, -, hplans, hmissing⟩ := bindArguments_eq_ok.1 h
  obtain ⟨plan, hplan, htarget⟩ := missing?_eq_none_iff.1 hmissing p hp hmandatory
  obtain ⟨a, ha, haplan⟩ := Success.exists_of_forall₂ hplans.flip hplan
  obtain ⟨⟨q, e⟩, hq, rfl⟩ := List.mem_map.1 ha
  have hname : q.name = p.name := by
    rw [← htarget, haplan.target_eq]
    rfl
  obtain hq | hq := List.mem_append.1 hq
  · rw [← hname]
    exact .inl ⟨q, parameter?_of_mem_namedBy hq, rfl⟩
  · obtain ⟨hfree, hposition⟩ := mem_placed.1 (List.of_mem_zip hq).1
    exact .inr ⟨q, (List.mem_filter.1 hfree).1, hname, hposition⟩

end Arguments

/-! ## Hashtable bodies -/

section Properties

variable {k : KeywordSpec}

theorem property?_of_planProperties {entries : List HashtableEntry} {span : Span}
    {plans : List Plan} (h : planProperties k entries span = .ok plans) {p : PropertySpec}
    (hp : p ∈ k.properties) (hmandatory : p.mandatory = true) :
    ∃ q, k.property? p.name = some q ∧ q.name = p.name := by
  obtain ⟨hplans, -, hall⟩ := planProperties_eq_ok.1 h
  obtain ⟨plan, hplan, htarget⟩ := hall p hp hmandatory
  obtain ⟨entry, -, a, hentry, haplan⟩ := Success.exists_of_forall₂ hplans.flip hplan
  obtain ⟨q, hq, rfl⟩ := Option.map_eq_some_iff.1 hentry
  obtain ⟨key, -, hkey⟩ := Option.bind_eq_some_iff.1 hq
  have hname : q.name = p.name := by rw [← htarget, haplan.target_eq]
  have hfound := KeywordSpec.property?_name hkey
  rw [hname] at hfound
  exact ⟨q, hfound, hname⟩

/-- An entry that gives a property the value of a variable. -/
def entryFor (name : String) : HashtableEntry :=
  ⟨.literal (.string name), .readVariable name, default⟩

theorem planEntry_entryFor {before : List Plan} {name : String} {p : PropertySpec}
    (h : k.property? name = some p) (hname : p.name = name)
    (hnew : ∀ plan ∈ before, plan.target ≠ name) :
    ∃ plan, planEntry k before (entryFor name) = .ok plan ∧ plan.target = name := by
  have hany : before.any (·.target == p.name) = false := by
    rw [hname, List.any_eq_false]
    simpa using hnew
  refine ⟨⟨p.name, p.constraint, .deferred (.readVariable name)⟩, ?_, hname⟩
  simp only [planEntry, entryFor, literalKey?, h, hany]
  rfl

/-- Entries for properties that are found under their exact names are accepted. -/
theorem planEntries_entryFor {before : List Plan} {names : List String} (hnodup : names.Nodup)
    (hfound : ∀ name ∈ names, ∃ p, k.property? name = some p ∧ p.name = name)
    (hnew : ∀ plan ∈ before, plan.target ∉ names) :
    ∃ plans, planEntries k before (names.map entryFor) = .ok plans ∧
      plans.map (·.target) = before.map (·.target) ++ names := by
  induction names generalizing before with
  | nil => exact ⟨before, rfl, by simp⟩
  | cons name rest ih =>
    obtain ⟨hfirst, hrest⟩ := List.forall_mem_cons.1 hfound
    obtain ⟨hname, hnodup⟩ := List.nodup_cons.1 hnodup
    obtain ⟨p, hp, hpname⟩ := hfirst
    obtain ⟨plan, hplan, htarget⟩ := planEntry_entryFor hp hpname fun plan hplan heq =>
      hnew plan hplan (by simp [heq])
    have hnext : ∀ plan' ∈ before ++ [plan], plan'.target ∉ rest := by
      intro plan' hplan'
      obtain hplan' | hplan' := List.mem_append.1 hplan'
      · exact fun hmem => hnew plan' hplan' (List.mem_cons_of_mem _ hmem)
      · rw [List.mem_singleton.1 hplan', htarget]
        exact hname
    obtain ⟨plans, hplans, htargets⟩ := ih hnodup hrest hnext
    refine ⟨plans, ?_, by simp [htargets, htarget]⟩
    rw [List.map_cons, planEntries, hplan, Success.ok_bind, hplans]

/-- A hashtable body can be accepted if and only if each mandatory property is found under its exact
name. -/
theorem exists_planProperties_iff {span : Span} :
    (∃ entries plans, planProperties k entries span = .ok plans) ↔
      ∀ p ∈ k.properties, p.mandatory = true →
        ∃ q, k.property? p.name = some q ∧ q.name = p.name := by
  constructor
  · rintro ⟨entries, plans, h⟩ p hp hmandatory
    exact property?_of_planProperties h hp hmandatory
  · intro h
    let names := ((k.properties.filter (·.mandatory)).map (·.name)).dedup
    have hfound : ∀ name ∈ names, ∃ p, k.property? name = some p ∧ p.name = name := by
      intro name hname
      obtain ⟨p, hp, rfl⟩ := List.mem_map.1 (List.mem_dedup.1 hname)
      obtain ⟨hp, hmandatory⟩ := List.mem_filter.1 hp
      exact h p hp hmandatory
    have hnew : ∀ plan ∈ ([] : List Plan), plan.target ∉ names := by simp
    obtain ⟨plans, hplans, htargets⟩ := planEntries_entryFor (List.nodup_dedup _) hfound hnew
    have hmissing : k.properties.find? (fun p =>
        p.mandatory && !plans.any (·.target == p.name)) = none := by
      rw [List.find?_eq_none]
      intro p hp
      cases hmandatory : p.mandatory with
      | false => simp
      | true =>
        have hname : p.name ∈ plans.map (·.target) := by
          rw [htargets, List.map_nil, List.nil_append, List.mem_dedup]
          exact List.mem_map.2 ⟨p, List.mem_filter.2 ⟨hp, hmandatory⟩, rfl⟩
        simpa using hname
    refine ⟨names.map entryFor, plans, ?_⟩
    rw [planProperties, hplans, Success.ok_bind, hmissing]
    rfl

end Properties

/-! ## Discovered keywords -/

/-- What lookups by name find in a keyword, and what follows for invocations of it. -/
structure Addressing (k : Keyword) : Prop where
  /-- Every child is found under its name. -/
  children : ∀ child ∈ k.children, k.child? child.name = some child
  /-- Every parameter is found under its name if no two names are the same apart from case. -/
  parameters : (k.spec.parameters.map (Text.fold ·.name)).Nodup →
    ∀ p ∈ k.spec.parameters, k.spec.parameter? p.name = some p
  /-- They are found each at its own place only if no two names are the same. -/
  parameterPlaces : Addressed ParameterSpec.name k.spec.parameters →
    (k.spec.parameters.map (Text.fold ·.name)).Nodup
  /-- Every property is found under its name if no two names are the same apart from case. -/
  properties : (k.spec.properties.map (Text.fold ·.name)).Nodup →
    ∀ p ∈ k.spec.properties, k.spec.property? p.name = some p
  /-- They are found each at its own place only if no two names are the same. -/
  propertyPlaces : Addressed PropertySpec.name k.spec.properties →
    (k.spec.properties.map (Text.fold ·.name)).Nodup
  /-- Accepted arguments give each mandatory parameter under its exact name or by position. -/
  arguments : ∀ elements span bound, bindArguments k.spec elements span = .ok bound →
    ∀ p ∈ k.spec.parameters, p.mandatoryIn bound.set = true →
      (∃ q, k.spec.parameter? p.name = some q ∧ q.name = p.name) ∨
        ∃ q ∈ k.spec.parameters, q.name = p.name ∧ (q.position? bound.set).isSome = true
  /-- Some hashtable body is accepted exactly if each mandatory property is found under its exact
  name. -/
  bodies : ∀ span, (∃ entries plans, planProperties k.spec entries span = .ok plans) ↔
    ∀ p ∈ k.spec.properties, p.mandatory = true →
      ∃ q, k.spec.property? p.name = some q ∧ q.name = p.name

/-- The children of a discovered keyword are all found under their names. So are its parameters and
properties if no two of them have the same name, apart from case. -/
theorem addressing_of_discovered {k : Keyword} (h : Discovered k) : Addressing k where
  children child hchild := by
    have hspecs := (KeywordSpec.validate_eq_ok.1 (validate_of_discovered h)).2.2.2.1
    have hnames : (k.children.map fun c => Text.fold c.name).Nodup := by
      have hmap : (k.children.map (·.spec)).map (fun c => Text.fold c.name) =
          k.children.map fun c => Text.fold c.name := List.map_map
      rw [← hmap, k.map_spec_children]
      exact hspecs
    exact find?_name_of_nodup hnames hchild
  parameters hnames _ hp := find?_name_of_nodup hnames hp
  parameterPlaces := addressed_iff_nodup.1
  properties hnames _ hp := find?_name_of_nodup hnames hp
  propertyPlaces := addressed_iff_nodup.1
  arguments _ _ _ hbound _ hp hmandatory := Arguments.reached_of_bindArguments hbound hp hmandatory
  bodies _ := exists_planProperties_iff

/-- The address in a letter is found. -/
theorem addressing_of_discovered_letter :
    Discovered Letter.letter ∧ Letter.letter.child? "Address" = some Letter.address := by
  have hdiscovered := Letter.give_letter.discovered
  have haddress := (addressing_of_discovered hdiscovered).children Letter.address
    (by simp [Letter.children_letter])
  exact ⟨hdiscovered, haddress⟩

/-! ### A sample

A tag has two mandatory properties whose names differ in case only.
-/

namespace Tag

/-- The module of tags. -/
def metadata : ModuleMetadata :=
  let property (name : String) : MemberRecord :=
    ⟨name, "System.String", .property, true, [Marker.ofProperty true]⟩
  ⟨⟨⟨5⟩, "Tags", "1.0"⟩,
    [⟨"Tag", some Marker.baseType, .classType, [Marker.ofKeyword .hashtable .optionalMany],
      [property "Name", property "name"], [], []⟩]⟩

/-- A tag. -/
def tag : Keyword :=
  ⟨⟨0, [0]⟩, ⟨"Tag", .hashtable, .optionalMany, none, [],
    [⟨"Name", "string", true, .empty⟩, ⟨"name", "string", true, .empty⟩], [], false,
    metadata.module⟩⟩

/-- The second property of a tag. -/
def lowerName : PropertySpec := ⟨"name", "string", true, .empty⟩

theorem lowerName_mem : lowerName ∈ tag.spec.properties := by simp [tag, lowerName]

theorem discovered_tag : Discovered tag := by
  have hok : (Discovery.discover metadata).isOk = true := by decide +kernel
  have hvalues : (Discovery.declaredModule metadata).values = [tag.spec] := by
    with_unfolding_all rfl
  refine ⟨metadata, _, 0, Discovery.discover_of_isOk hok, .top ?_⟩
  rw [hvalues]
  simp [Forest.keywords, tag]

theorem name_of_property? {p : PropertySpec}
    (h : tag.spec.property? lowerName.name = some p) : p.name = "Name" := by
  have hsame : Text.sameName "Name" "name" = true := by
    rw [Text.sameName_iff]
    apply String.ext
    simp only [Text.fold, String.toList_map]
    decide +kernel
  have hfirst : tag.spec.property? lowerName.name = some ⟨"Name", "string", true, .empty⟩ :=
    List.find?_cons_of_pos hsame
  rw [← Option.some.inj (hfirst.symm.trans h)]

end Tag

/-- The second property of a tag is not found under its name, and no hashtable body of a tag is
accepted. -/
theorem not_addressed_tag : Discovered Tag.tag ∧ Tag.lowerName ∈ Tag.tag.spec.properties ∧
    Tag.tag.spec.property? Tag.lowerName.name ≠ some Tag.lowerName ∧
      ∀ entries span, (planProperties Tag.tag.spec entries span).isOk = false := by
  have hname : Tag.lowerName.name ≠ "Name" := by decide
  refine ⟨Tag.discovered_tag, Tag.lowerName_mem, fun hfound => ?_, fun entries span => ?_⟩
  · exact hname (Tag.name_of_property? hfound)
  · cases hplans : planProperties Tag.tag.spec entries span with
    | error e => rfl
    | ok plans =>
      obtain ⟨q, hq, heq⟩ := property?_of_planProperties hplans Tag.lowerName_mem rfl
      exact absurd (heq.symm.trans (Tag.name_of_property? hq)) hname

end KeywordEngine
