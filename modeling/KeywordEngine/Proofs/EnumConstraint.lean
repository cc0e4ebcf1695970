import KeywordEngine.Constraint.Coercion
import KeywordEngine.Proofs.Forest

/-!
# Constraints of enum types

A parameter or property whose type is a declared enum accepts the members of that enum, unless the
engine knows the name of the enum as that of one of its own types.

* `visibleEnum?`: the enum that a name denotes among levels of types.
* `TypeConstraint.builtin?`: the types that the engine knows by name.
* `Forest.StandsFor`: the type that a keyword stands for, and the levels of types around it.
* `checksEnum_of_discovered`: the constraints of the members of discovered keywords.
-/

namespace KeywordEngine

open Discovery

/-! ## Declared enums -/

/-- The members of an enum: its fields but the backing field. -/
def TypeRecord.HasMember (e : TypeRecord) (name : String) : Prop :=
  name ∈ e.enumFields ∧ name ≠ Marker.enumBackingField

/-- The enum that a name denotes among levels of types, the innermost first: in the first level that
has enums of that name, the last of them. -/
def visibleEnum? (levels : List (List TypeRecord)) (name : String) : Option TypeRecord :=
  levels.findSome? fun types =>
    (types.filter fun t => t.kind = .enumType ∧ t.name = name).getLast?

theorem get?_enumsOf (types : List TypeRecord) (name : String) :
    (enumsOf types).get? name =
      ((types.filter fun t => t.kind = .enumType ∧ t.name = name).getLast?).map enumMembers := by
  have hfilter : (types.filter (·.kind == .enumType)).filter (fun t => t.name = name) =
      types.filter fun t => t.kind = .enumType ∧ t.name = name := by
    rw [List.filter_filter]
    refine List.filter_congr fun t _ => ?_
    cases t.kind <;> simp
  unfold enumsOf
  rw [SortedMap.get?_ofList, List.filter_map, List.getLast?_map, Option.map_map]
  show (List.getLast? (List.filter (fun t => t.name = name) _)).map enumMembers = _
  rw [hfilter]

theorem lookupEnum_map_enumsOf (levels : List (List TypeRecord)) (typeName : String) :
    lookupEnum (levels.map enumsOf) typeName =
      ((visibleEnum? levels (TypeName.elementName typeName)).map enumMembers).getD ∅ := by
  unfold lookupEnum visibleEnum?
  rw [List.findSome?_map]
  simp only [get?_enumsOf, Function.comp_def, List.map_findSome?]

theorem mem_keys_enumMembers {e : TypeRecord} {name : String} :
    name ∈ (enumMembers e).keys ↔ e.HasMember name := by
  unfold enumMembers SortedSet.ofTexts TypeRecord.HasMember
  rw [SortedMap.mem_keys, ← Option.isSome_iff_exists, SortedMap.isSome_get?_ofList]
  simp

theorem isEmpty_enumMembers {e : TypeRecord} (h : ∃ name, e.HasMember name) :
    (enumMembers e).isEmpty = false := by
  obtain ⟨name, hname⟩ := h
  rw [← mem_keys_enumMembers] at hname
  unfold SortedMap.keys at hname
  unfold SortedMap.isEmpty
  cases hlist : (enumMembers e).toList with
  | nil => simp [hlist] at hname
  | cons entry rest => rfl

/-! ## Constraints -/

namespace TypeConstraint

/-- The types that the engine knows by name, in whatever case. -/
def builtin? (name : String) : Option TypeConstraint :=
  match Text.fold name with
  | "" | "object" => some any
  | "bool" | "switch" => some bool
  | "int" | "long" => some int
  | "string" => some string
  | "hashtable" => some hashtable
  | _ => none

/-- A name that the engine knows wins over the members of an enum. -/
theorem ofElementName_eq (name : String) (members : SortedSet) :
    ofElementName name members =
      (builtin? name).getD (if members.isEmpty then unchecked name else enum name members) := by
  unfold ofElementName builtin?
  split <;> simp_all

/-- The constraint for a decoded type name. -/
theorem ofTypeName_decode (signature : String) (members : SortedSet) :
    ∃ rank, TypeName.decode signature =
        TypeName.withRank (TypeName.elementName (TypeName.decode signature)) rank ∧
      ofTypeName (TypeName.decode signature) members =
        (ofElementName (Text.trim (TypeName.elementName (TypeName.decode signature)))
          members).arrays rank := by
  obtain ⟨rank, hdecode, hsplit⟩ := TypeName.decode_eq_withRank signature
  refine ⟨rank, hdecode, ?_⟩
  unfold ofTypeName
  rw [hsplit]

/-- An enum accepts the texts that are its members, apart from case and from blanks around them. -/
theorem isOk_coerce_enum {name : String} {members : SortedSet} {v : Value} :
    ((enum name members).coerce v).isOk = true ↔
      ∃ s, v = .string s ∧ ∃ m ∈ members.keys, Text.sameName m (Text.trim s) = true := by
  have hok : ((enum name members).coerce v).isOk = (memberOf? members v).isSome := by
    unfold coerce coerce?
    cases memberOf? members v <;> rfl
  rw [hok]
  cases v with
  | string s => simp [memberOf?, List.find?_isSome]
  | _ => simp [memberOf?]

end TypeConstraint

/-! ## Members with types -/

/-- What a parameter or property says of its type. -/
structure TypedMember where
  name : String
  typeName : String
  /-- The members of the enum that the type name denotes. -/
  members : SortedSet

/-- What the parameters and the properties of a keyword say of their types. -/
def KeywordSpec.memberTypes (k : KeywordSpec) : List TypedMember :=
  k.parameters.map (fun p => ⟨p.name, p.typeName, p.members⟩) ++
    k.properties.map fun p => ⟨p.name, p.typeName, p.members⟩

/-- What a member of a keyword type says of its type, among the enums of some levels. -/
def MemberRecord.typed (m : MemberRecord) (levels : List EnumTable) : TypedMember :=
  ⟨m.name, TypeName.decode m.signature, lookupEnum levels (TypeName.decode m.signature)⟩

theorem MemberRecord.typed_of_parameter? {m : MemberRecord} {levels : List EnumTable}
    {p : ParameterSpec} (h : m.parameter? levels = some p) :
    (⟨p.name, p.typeName, p.members⟩ : TypedMember) = m.typed levels := by
  unfold MemberRecord.parameter? at h
  cases hmarkers : m.parameterMarkers with
  | nil => simp [hmarkers] at h
  | cons a rest =>
    simp only [hmarkers, Option.some.injEq] at h
    subst h
    rfl

theorem MemberRecord.typed_of_property? {m : MemberRecord} {levels : List EnumTable}
    {p : PropertySpec} (h : m.property? levels = some p) :
    (⟨p.name, p.typeName, p.members⟩ : TypedMember) = m.typed levels := by
  unfold MemberRecord.property? at h
  cases hmarkers : m.parameterMarkers with
  | nil =>
    simp only [hmarkers, Option.map_eq_some_iff] at h
    obtain ⟨a, -, rfl⟩ := h
    rfl
  | cons a rest => simp [hmarkers] at h

/-- The parameters and properties of a declared keyword are settable members of its type. -/
theorem mem_memberTypes_declared {module : ModuleRef} {levels : List EnumTable} {isNested : Bool}
    {t : TypeRecord} {p : TypedMember} (h : p ∈ (t.declared module levels isNested).memberTypes) :
    ∃ member ∈ t.settableMembers, p = member.typed (enumsOf t.nested :: levels) := by
  rw [TypeRecord.declared_eq] at h
  obtain h | h := List.mem_append.1 h
  · obtain ⟨q, hq, rfl⟩ := List.mem_map.1 h
    obtain ⟨member, hmember, hdeclares⟩ := List.mem_filterMap.1 hq
    exact ⟨member, hmember, MemberRecord.typed_of_parameter? hdeclares⟩
  · obtain ⟨q, hq, rfl⟩ := List.mem_map.1 h
    obtain ⟨member, hmember, hdeclares⟩ := List.mem_filterMap.1 hq
    exact ⟨member, hmember, MemberRecord.typed_of_property? hdeclares⟩

/-- The parameters and properties of a keyword: their type names and what they accept. -/
def KeywordSpec.typedMembers (k : KeywordSpec) : List (String × TypeConstraint) :=
  k.parameters.map (fun p => (p.typeName, p.constraint)) ++
    k.properties.map fun p => (p.typeName, p.constraint)

theorem KeywordSpec.typedMembers_eq (k : KeywordSpec) :
    k.typedMembers =
      k.memberTypes.map fun p => (p.typeName, .ofTypeName p.typeName p.members) := by
  rw [memberTypes, List.map_append, List.map_map, List.map_map]
  rfl

/-- The parameters and properties that a type declares among some enums. -/
theorem mem_typedMembers_declared {module : ModuleRef} {levels : List EnumTable} {isNested : Bool}
    {t : TypeRecord} {typeName : String} {c : TypeConstraint}
    (h : (typeName, c) ∈ (t.declared module levels isNested).typedMembers) :
    ∃ signature, typeName = TypeName.decode signature ∧
      c = .ofTypeName typeName (lookupEnum (enumsOf t.nested :: levels) typeName) := by
  rw [KeywordSpec.typedMembers_eq] at h
  obtain ⟨p, hp, heq⟩ := List.mem_map.1 h
  obtain ⟨rfl, rfl⟩ := Prod.mk.inj heq
  obtain ⟨member, -, rfl⟩ := mem_memberTypes_declared hp
  exact ⟨member.signature, rfl, rfl⟩

/-! ## The type of a keyword -/

/-- The type that a keyword of a forest stands for, and the levels of types around that type, the
innermost first. At the top it is the keyword type of the module that has the name of the keyword,
and below another keyword the one nested in the type of that keyword. -/
inductive Forest.StandsFor (f : Forest) (m : ModuleMetadata) :
    Keyword → List (List TypeRecord) → TypeRecord → Prop
  | top {k : Keyword} {t : TypeRecord} (listed : k ∈ f.keywords) (type : t ∈ keywordTypes m.types)
      (named : t.name = k.name) : f.StandsFor m k [m.types] t
  | nested {parent k : Keyword} {levels : List (List TypeRecord)} {around t : TypeRecord}
      (held : f.StandsFor m parent levels around) (listed : k ∈ parent.children)
      (type : t ∈ keywordTypes around.nested) (named : t.name = k.name) :
      f.StandsFor m k (around.nested :: levels) t

section Discovery

variable {m : ModuleMetadata} {keywords : SortedMap String KeywordSpec} {id : Nat} {k : Keyword}

/-- Among the keywords of a level, the name of a type gives the keyword that it declares. -/
theorem eq_declared_of_name {module : ModuleRef} {levels : List EnumTable} {isNested : Bool}
    {types : List TypeRecord} {t : TypeRecord} {k : KeywordSpec} (h : DistinctNames types)
    (ht : t ∈ keywordTypes types)
    (hk : ∃ t' ∈ keywordTypes types, t'.declared module levels isNested = k)
    (hname : t.name = k.name) : k = t.declared module levels isNested := by
  obtain ⟨t', ht', rfl⟩ := hk
  rw [TypeRecord.declared_name] at hname
  rw [List.inj_on_of_nodup_map h ht ht' (congrArg Text.fold hname)]

theorem exists_declared_of_mem_keywords (wf : m.WellFormed)
    (h : k ∈ (Forest.mk id (declaredModule m).values).keywords) :
    ∃ t ∈ keywordTypes m.types, t.declared m.module [enumsOf m.types] false = k.spec := by
  obtain ⟨⟨name, spec⟩, hentry, rfl⟩ := List.mem_map.1 (spec_mem_of_mem_keywords h)
  obtain ⟨t, ht, -, hdeclared⟩ :=
    (get?_declaredModule wf.names).1 (SortedMap.mem_toList_iff.1 hentry)
  exact ⟨t, ht, hdeclared⟩

theorem exists_declared_of_mem_children {parent : Keyword} {levels : List EnumTable}
    {isNested : Bool} {t : TypeRecord} (hparent : parent.spec = t.declared m.module levels isNested)
    (h : k ∈ parent.children) :
    ∃ t' ∈ keywordTypes t.nested,
      t'.declared m.module (enumsOf t.nested :: levels) true = k.spec := by
  have hchild := spec_mem_of_mem_children h
  rw [hparent, TypeRecord.declared_eq] at hchild
  exact List.mem_map.1 hchild

/-- A keyword is what the type that it stands for declares. -/
theorem Forest.StandsFor.spec_eq (hdiscover : discover m = .ok keywords)
    {levels : List (List TypeRecord)} {t : TypeRecord}
    (h : (Forest.mk id keywords.values).StandsFor m k levels t) :
    ∃ isNested, Reaches false m.types isNested t ∧
      k.spec = t.declared m.module (levels.map enumsOf) isNested := by
  obtain ⟨wf, rfl⟩ := discover_eq_ok.1 hdiscover
  induction h with
  | top listed type named =>
    exact ⟨false, .here type,
      eq_declared_of_name wf.names type (exists_declared_of_mem_keywords wf listed) named⟩
  | nested held listed type named ih =>
    obtain ⟨isNested, hreached, hparent⟩ := ih
    exact ⟨true, .nested hreached type,
      eq_declared_of_name (wf.types isNested _ hreached).siblings type
        (exists_declared_of_mem_children hparent listed) named⟩

/-- Every keyword of a discovered forest stands for a type. -/
theorem exists_standsFor (hdiscover : discover m = .ok keywords)
    (h : (Forest.mk id keywords.values).Holds k) :
    ∃ levels t, (Forest.mk id keywords.values).StandsFor m k levels t := by
  induction h with
  | top listed =>
    obtain ⟨wf, rfl⟩ := discover_eq_ok.1 hdiscover
    obtain ⟨t, ht, hdeclared⟩ := exists_declared_of_mem_keywords wf listed
    refine ⟨[m.types], t, .top listed ht ?_⟩
    rw [Keyword.name, ← hdeclared, TypeRecord.declared_name]
  | nested held listed ih =>
    obtain ⟨levels, around, hstands⟩ := ih
    obtain ⟨isNested, -, hparent⟩ := hstands.spec_eq hdiscover
    obtain ⟨t, ht, hdeclared⟩ := exists_declared_of_mem_children hparent listed
    refine ⟨around.nested :: levels, t, .nested hstands listed ht ?_⟩
    rw [Keyword.name, ← hdeclared, TypeRecord.declared_name]

/-- What a parameter or property whose type is an enum accepts. -/
theorem constraint_eq_of_standsFor (hdiscover : discover m = .ok keywords)
    {levels : List (List TypeRecord)} {t : TypeRecord}
    (hstands : (Forest.mk id keywords.values).StandsFor m k levels t)
    {typeName : String} {c : TypeConstraint} (hc : (typeName, c) ∈ k.spec.typedMembers)
    {e : TypeRecord}
    (he : visibleEnum? (t.nested :: levels) (TypeName.elementName typeName) = some e)
    (hmember : ∃ name, e.HasMember name) :
    let name := Text.trim (TypeName.elementName typeName)
    ∃ rank, typeName = TypeName.withRank (TypeName.elementName typeName) rank ∧
      c = ((TypeConstraint.builtin? name).getD (.enum name (enumMembers e))).arrays rank := by
  obtain ⟨isNested, -, hspec⟩ := hstands.spec_eq hdiscover
  rw [hspec] at hc
  obtain ⟨signature, hname, hconstraint⟩ := mem_typedMembers_declared hc
  have hlookup : lookupEnum (enumsOf t.nested :: levels.map enumsOf) typeName =
      enumMembers e := by
    rw [← List.map_cons, lookupEnum_map_enumsOf, he, Option.map_some, Option.getD_some]
  obtain ⟨rank, hrank, hdecode⟩ := TypeConstraint.ofTypeName_decode signature (enumMembers e)
  rw [← hname] at hrank hdecode
  rw [TypeConstraint.ofElementName_eq, isEmpty_enumMembers hmember,
    if_neg Bool.false_ne_true] at hdecode
  rw [hlookup] at hconstraint
  exact ⟨rank, hrank, hconstraint.trans hdecode⟩

end Discovery

/-- `c` checks values of a type, an enum or arrays of it, for membership in the enum. -/
structure ChecksEnum (typeName : String) (e : TypeRecord) (c : TypeConstraint) : Prop where
  /-- The members of the enum under one layer of arrays for each group. -/
  constraint : ∃ rank name members,
    typeName = TypeName.withRank (TypeName.elementName typeName) rank ∧
      (∀ m, m ∈ members.keys ↔ e.HasMember m) ∧ c = (TypeConstraint.enum name members).arrays rank
  /-- The texts that are members, apart from case and from blanks around them. -/
  accepted : TypeName.elementName typeName = typeName → ∀ v, (c.coerce v).isOk = true ↔
    ∃ s, v = .string s ∧ ∃ m, e.HasMember m ∧ Text.sameName m (Text.trim s) = true

theorem checksEnum_arrays {typeName name : String} {e : TypeRecord} {rank : Nat}
    (hrank : typeName = TypeName.withRank (TypeName.elementName typeName) rank) :
    ChecksEnum typeName e ((TypeConstraint.enum name (enumMembers e)).arrays rank) where
  constraint := ⟨rank, name, enumMembers e, hrank, fun _ => mem_keys_enumMembers, rfl⟩
  accepted helement v := by
    rw [helement, eq_comm, TypeName.withRank_eq_self] at hrank
    subst hrank
    refine TypeConstraint.isOk_coerce_enum.trans ?_
    simp only [mem_keys_enumMembers]

/-! ### A sample

A parcel has a size and a length, both of them enums, of which the engine takes one for numbers.
-/

namespace Parcel

/-- An enum of sizes. -/
def size : TypeRecord :=
  ⟨"Size", none, .enumType, [], [], [Marker.enumBackingField, "Small", "Large"], []⟩

/-- An enum of lengths. -/
def long : TypeRecord :=
  ⟨"Long", none, .enumType, [], [], [Marker.enumBackingField, "Short", "Tall"], []⟩

/-- The type of parcels. -/
def type : TypeRecord :=
  let property (name signature : String) : MemberRecord :=
    ⟨name, signature, .property, true, [Marker.ofProperty false]⟩
  ⟨"Parcel", some Marker.baseType, .classType, [Marker.ofKeyword .hashtable .optionalMany],
    [property "Size" "Post.Size", property "Length" "Post.Long"], [], []⟩

/-- The module of parcels. -/
def metadata : ModuleMetadata := ⟨⟨⟨4⟩, "Parcels", "1.0"⟩, [size, long, type]⟩

/-- The size of a parcel. -/
def sizeProperty : PropertySpec := ⟨"Size", "Size", false, enumMembers size⟩

/-- The length of a parcel. -/
def lengthProperty : PropertySpec := ⟨"Length", "Long", false, enumMembers long⟩

/-- A parcel. -/
def parcel : Keyword :=
  ⟨⟨0, [0]⟩, ⟨"Parcel", .hashtable, .optionalMany, none, [], [sizeProperty, lengthProperty], [],
    false, metadata.module⟩⟩

theorem discover_metadata : ∃ keywords, discover metadata = .ok keywords ∧
    keywords.values = [parcel.spec] := by
  have hok : (discover metadata).isOk = true := by decide +kernel
  exact ⟨_, discover_of_isOk hok, by with_unfolding_all rfl⟩

theorem mem_keywords {keywords : SortedMap String KeywordSpec}
    (h : keywords.values = [parcel.spec]) : parcel ∈ (Forest.mk 0 keywords.values).keywords := by
  rw [h]
  simp [Forest.keywords, parcel]

theorem standsFor_parcel {keywords : SortedMap String KeywordSpec}
    (h : keywords.values = [parcel.spec]) :
    (Forest.mk 0 keywords.values).StandsFor metadata parcel [metadata.types] type :=
  .top (mem_keywords h) (List.mem_filter.2 ⟨by simp [metadata], by decide +kernel⟩) rfl

end Parcel

/-- What a parameter or property of a discovered keyword accepts if its type, without its groups, is
an enum with members that is visible there: the members of that enum, or whatever the engine's own
type of that name accepts if there is one, in each case under one layer of arrays for each group. -/
theorem checksEnum_of_discovered {m : ModuleMetadata} {keywords : SortedMap String KeywordSpec}
    {id : Nat} {k : Keyword} (hdiscover : discover m = .ok keywords)
    (hheld : (Forest.mk id keywords.values).Holds k) :
    (∃ levels t, (Forest.mk id keywords.values).StandsFor m k levels t) ∧
      ∀ levels t, (Forest.mk id keywords.values).StandsFor m k levels t →
        ∀ typeName c, (typeName, c) ∈ k.spec.typedMembers →
          ∀ e, visibleEnum? (t.nested :: levels) (TypeName.elementName typeName) = some e →
            (∃ name, e.HasMember name) →
              match TypeConstraint.builtin? (Text.trim (TypeName.elementName typeName)) with
              | none => ChecksEnum typeName e c
              | some known => ∃ rank,
                typeName = TypeName.withRank (TypeName.elementName typeName) rank ∧
                  c = known.arrays rank := by
  refine ⟨exists_standsFor hdiscover hheld, ?_⟩
  intro levels t hstands typeName c hc e he hmember
  obtain ⟨rank, hrank, rfl⟩ := constraint_eq_of_standsFor hdiscover hstands hc he hmember
  split
  · rename_i hbuiltin
    rw [hbuiltin]
    exact checksEnum_arrays hrank
  · rename_i known hbuiltin
    rw [hbuiltin]
    exact ⟨rank, hrank, rfl⟩

/-- The size of a parcel is checked. -/
theorem checksEnum_of_discovered_size :
    Parcel.sizeProperty ∈ Parcel.parcel.spec.properties ∧
      ChecksEnum "Size" Parcel.size Parcel.sizeProperty.constraint := by
  obtain ⟨keywords, hdiscover, hvalues⟩ := Parcel.discover_metadata
  have hproperty : Parcel.sizeProperty ∈ Parcel.parcel.spec.properties := List.mem_cons_self
  have hvisible : visibleEnum? [Parcel.type.nested, Parcel.metadata.types]
      (TypeName.elementName "Size") = some Parcel.size := by
    with_unfolding_all rfl
  have hbuiltin : TypeConstraint.builtin? (Text.trim (TypeName.elementName "Size")) = none := by
    with_unfolding_all rfl
  obtain ⟨-, hchecks⟩ :=
    checksEnum_of_discovered hdiscover (.top (Parcel.mem_keywords hvalues))
  have hsize := hchecks _ _ (Parcel.standsFor_parcel hvalues) "Size" Parcel.sizeProperty.constraint
    (List.mem_append_right _ (List.mem_map.2 ⟨_, hproperty, rfl⟩)) Parcel.size hvisible
      ⟨"Small", by decide, by decide⟩
  rw [hbuiltin] at hsize
  exact ⟨hproperty, hsize⟩

/-- The length of a parcel is not checked: an enum of that name is taken for a number. -/
theorem not_checksEnum_length : ∃ keywords, discover Parcel.metadata = .ok keywords ∧
    (Forest.mk 0 keywords.values).StandsFor Parcel.metadata Parcel.parcel [Parcel.metadata.types]
      Parcel.type ∧
    Parcel.lengthProperty ∈ Parcel.parcel.spec.properties ∧
    visibleEnum? [Parcel.type.nested, Parcel.metadata.types]
      (TypeName.elementName Parcel.lengthProperty.typeName) = some Parcel.long ∧
    Parcel.long.HasMember "Short" ∧
    ¬ ChecksEnum Parcel.lengthProperty.typeName Parcel.long Parcel.lengthProperty.constraint := by
  obtain ⟨keywords, hdiscover, hvalues⟩ := Parcel.discover_metadata
  have hmember : Parcel.long.HasMember "Short" := ⟨by decide, by decide⟩
  refine ⟨keywords, hdiscover, Parcel.standsFor_parcel hvalues, by simp [Parcel.parcel],
    by with_unfolding_all rfl, hmember, fun hchecks => ?_⟩
  have haccepted := (hchecks.accepted (by with_unfolding_all rfl) (.string "Short")).2
    ⟨"Short", rfl, "Short", hmember, by decide +kernel⟩
  have hrejected : (Parcel.lengthProperty.constraint.coerce (.string "Short")).isOk = false := by
    decide +kernel
  exact Bool.false_ne_true (hrejected.symm.trans haccepted)

end KeywordEngine
