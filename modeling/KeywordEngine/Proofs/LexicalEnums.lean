import KeywordEngine.Proofs.EnumConstraint

/-!
# Enum names are resolved lexically

The members that a parameter or property carries are those of the enum that its type name denotes
where the keyword type stands: an enum nested directly in that type, or else directly in one of the
types around it, from the inside out, or else at module root. The name alone decides, whatever the
level that has it declares and whatever stands in other types.

* `LexicalMember`: the lookup, on the levels of types alone.
* `visibleEnum?_congr`: it reads the enums of each level and nothing else.
* `resolvesLexically`: what the parameters and properties of a declared keyword carry.
* `lexicalEnums_of_discovered`: the keywords of an accepted module, at every depth.
-/

namespace KeywordEngine

open Discovery

/-! ## The lookup -/

/-- The enums of a level, in the order of their declaration. -/
def enumsAmong (types : List TypeRecord) : List TypeRecord := types.filter (·.kind = .enumType)

/-- A text is a member of the enum that a name denotes among levels of types, the innermost first. -/
def LexicalMember (levels : List (List TypeRecord)) (name member : String) : Prop :=
  ∃ e, visibleEnum? levels name = some e ∧ e.HasMember member

/-- What the lookup in the tables of the levels gives are these members. -/
theorem mem_keys_lookupEnum {levels : List (List TypeRecord)} {typeName member : String} :
    member ∈ (lookupEnum (levels.map enumsOf) typeName).keys ↔
      LexicalMember levels (TypeName.elementName typeName) member := by
  rw [lookupEnum_map_enumsOf, LexicalMember]
  cases visibleEnum? levels (TypeName.elementName typeName) with
  | none => simp [SortedMap.keys, show (∅ : SortedSet).toList = [] from rfl]
  | some e => simp [mem_keys_enumMembers]

/-- The enum that a name denotes depends on the enums of each level and on nothing else. -/
theorem visibleEnum?_congr {levels levels' : List (List TypeRecord)}
    (h : levels.map enumsAmong = levels'.map enumsAmong) (name : String) :
    visibleEnum? levels name = visibleEnum? levels' name := by
  have hread : ∀ levels : List (List TypeRecord), visibleEnum? levels name =
      (levels.map enumsAmong).findSome? fun enums => (enums.filter (·.name = name)).getLast? := by
    intro levels
    rw [List.findSome?_map]
    refine congrArg (levels.findSome? ·) (funext fun types => ?_)
    show _ = ((enumsAmong types).filter _).getLast?
    rw [enumsAmong, List.filter_filter]
    congr 1
    refine List.filter_congr fun t _ => ?_
    rw [Bool.and_comm, Bool.decide_and]
  rw [hread, hread, h]

/-! ## Declared keywords -/

/-- A parameter or property of a keyword type that stands among levels of types: it has the decoded
type name of a settable member, and carries what this name without its groups denotes. -/
structure ResolvesLexically (t : TypeRecord) (levels : List (List TypeRecord))
    (p : TypedMember) : Prop where
  declared : ∃ member ∈ t.settableMembers, p.name = member.name ∧
    p.typeName = TypeName.decode member.signature
  resolved : ∃ base rank, p.typeName = TypeName.withRank base rank ∧
    ¬ TypeName.EndsInGroup base ∧
      ∀ member, member ∈ p.members.keys ↔ LexicalMember (t.nested :: levels) base member

theorem resolvesLexically {module : ModuleRef} {levels : List (List TypeRecord)} {isNested : Bool}
    {t : TypeRecord} {p : TypedMember}
    (h : p ∈ (t.declared module (levels.map enumsOf) isNested).memberTypes) :
    ResolvesLexically t levels p := by
  obtain ⟨member, hmember, rfl⟩ := mem_memberTypes_declared h
  have hbase := TypeName.elementName_eq_iff.1
    (rfl : TypeName.elementName (TypeName.decode member.signature) = _)
  obtain ⟨⟨rank, hrank⟩, hgroup⟩ := hbase
  refine ⟨⟨member, hmember, rfl, rfl⟩, _, rank, hrank, hgroup, fun name => ?_⟩
  rw [MemberRecord.typed, ← List.map_cons]
  exact mem_keys_lookupEnum

theorem ResolvesLexically.mem_keys_iff {t : TypeRecord} {levels : List (List TypeRecord)}
    {p : TypedMember} (h : ResolvesLexically t levels p) (member : String) :
    member ∈ p.members.keys ↔
      LexicalMember (t.nested :: levels) (TypeName.elementName p.typeName) member := by
  obtain ⟨base, rank, hname, hgroup, hmembers⟩ := h.resolved
  rw [hmembers, TypeName.elementName_eq_iff.2 ⟨⟨rank, hname⟩, hgroup⟩]

/-! ## Discovered keywords -/

/-- Enum names in the parameters and properties of a keyword of a forest of a module. -/
structure LexicalEnums (m : ModuleMetadata) (f : Forest) (k : Keyword) : Prop where
  /-- The keyword stands for a type among levels of types. -/
  stands : ∃ levels t, f.StandsFor m k levels t
  /-- All names are resolved at the place of that type. -/
  resolves : ∀ levels t, f.StandsFor m k levels t →
    ∀ p ∈ k.spec.memberTypes, ResolvesLexically t levels p
  /-- Only the enums of the levels matter: wherever a keyword of whatever accepted module stands
  among the same enums, the same type name carries the same members. Other types, what is nested in
  them, and where they stand among the keyword types make no difference. -/
  independent : ∀ m' keywords' id' k', discover m' = .ok keywords' →
    ∀ levels t levels' t', f.StandsFor m k levels t →
      (Forest.mk id' keywords'.values).StandsFor m' k' levels' t' →
        (t.nested :: levels).map enumsAmong = (t'.nested :: levels').map enumsAmong →
          ∀ p ∈ k.spec.memberTypes, ∀ p' ∈ k'.spec.memberTypes, p.typeName = p'.typeName →
            p.members = p'.members

theorem resolvesLexically_of_standsFor {m : ModuleMetadata}
    {keywords : SortedMap String KeywordSpec} {id : Nat} {k : Keyword}
    (hdiscover : discover m = .ok keywords) {levels : List (List TypeRecord)} {t : TypeRecord}
    (hstands : (Forest.mk id keywords.values).StandsFor m k levels t) {p : TypedMember}
    (hp : p ∈ k.spec.memberTypes) : ResolvesLexically t levels p := by
  obtain ⟨isNested, -, hspec⟩ := hstands.spec_eq hdiscover
  rw [hspec] at hp
  exact resolvesLexically hp

/-! ### A sample

Sizes of crates hide the sizes of the module. The sizes of a stamp and those of a lid, which is no
keyword, hide nothing from a label, which stands beside them.
-/

namespace Crate

/-- An enum of sizes. -/
def sizes (fields : List String) : TypeRecord :=
  ⟨"Size", none, .enumType, [], [], Marker.enumBackingField :: fields, []⟩

/-- The type of labels, which are for crates of some sizes. -/
def labelType : TypeRecord :=
  ⟨"Label", some Marker.baseType, .classType, [Marker.ofKeyword .command .optionalMany],
    [⟨"For", "Post.Size[]", .property, true, [Marker.ofParameter ⟨some 0, true⟩ none]⟩], [], []⟩

/-- The type of crates. -/
def type : TypeRecord :=
  ⟨"Crate", some Marker.baseType, .classType, [Marker.ofKeyword .scriptBlock .optionalMany], [], [],
    [⟨"Stamp", some Marker.baseType, .classType, [Marker.ofKeyword .command .optionalMany], [], [],
        [sizes ["Tiny"]]⟩,
      ⟨"Lid", none, .classType, [], [], [], [sizes ["Flat"]]⟩, sizes ["Small", "Big"], labelType]⟩

/-- The module of crates. -/
def metadata : ModuleMetadata := ⟨⟨⟨6⟩, "Crates", "1.0"⟩, [type, sizes ["Huge"]]⟩

/-- A crate. -/
def crate : Keyword :=
  ⟨⟨0, [0]⟩, type.declared metadata.module [enumsOf metadata.types] false⟩

/-- A label in a crate. -/
def label : Keyword :=
  ⟨⟨0, [0, 1]⟩,
    labelType.declared metadata.module [enumsOf type.nested, enumsOf metadata.types] true⟩

/-- The sizes that a label is for. -/
def labelSizes : TypedMember := ⟨"For", "Size[]", .ofTexts ["Small", "Big"]⟩

theorem discover_metadata : ∃ keywords, discover metadata = .ok keywords ∧
    keywords.values = [crate.spec] := by
  have hok : (discover metadata).isOk = true := by decide +kernel
  exact ⟨_, discover_of_isOk hok, by with_unfolding_all rfl⟩

theorem standsFor_label {keywords : SortedMap String KeywordSpec}
    (h : keywords.values = [crate.spec]) :
    (Forest.mk 0 keywords.values).Holds label ∧
      (Forest.mk 0 keywords.values).StandsFor metadata label [type.nested, metadata.types]
        labelType := by
  have hcrate : crate ∈ (Forest.mk 0 keywords.values).keywords := by
    rw [h]
    simp [Forest.keywords, crate]
  have hlabel : label ∈ crate.children := by
    rw [Keyword.mem_children]
    exact ⟨1, by with_unfolding_all rfl, rfl⟩
  refine ⟨.nested (.top hcrate) hlabel, .nested (.top hcrate ?_ rfl) hlabel ?_ rfl⟩
  · exact List.mem_filter.2 ⟨by simp [metadata], by decide +kernel⟩
  · exact List.mem_filter.2 ⟨by simp [type], by decide +kernel⟩

end Crate

/-- In every module that discovery accepts, the parameters and properties of every keyword carry the
members of the enums that their type names denote lexically. -/
theorem lexicalEnums_of_discovered {m : ModuleMetadata} {keywords : SortedMap String KeywordSpec}
    {id : Nat} {k : Keyword} (hdiscover : discover m = .ok keywords)
    (hheld : (Forest.mk id keywords.values).Holds k) :
    LexicalEnums m (Forest.mk id keywords.values) k where
  stands := exists_standsFor hdiscover hheld
  resolves _ _ hstands _ hp := resolvesLexically_of_standsFor hdiscover hstands hp
  independent m' keywords' id' k' hdiscover' levels t levels' t' hstands hstands' henums p hp p' hp'
      hname := by
    refine SortedSet.ext_keys fun member => ?_
    rw [(resolvesLexically_of_standsFor hdiscover hstands hp).mem_keys_iff,
      (resolvesLexically_of_standsFor hdiscover' hstands' hp').mem_keys_iff, hname, LexicalMember,
      LexicalMember, visibleEnum?_congr henums]

/-- The sizes of a label are those of a crate. -/
theorem lexicalEnums_of_discovered_label : ∃ keywords, discover Crate.metadata = .ok keywords ∧
    (Forest.mk 0 keywords.values).Holds Crate.label ∧
      Crate.labelSizes ∈ Crate.label.spec.memberTypes ∧
        ResolvesLexically Crate.labelType [Crate.type.nested, Crate.metadata.types]
          Crate.labelSizes := by
  obtain ⟨keywords, hdiscover, hvalues⟩ := Crate.discover_metadata
  obtain ⟨hheld, hstands⟩ := Crate.standsFor_label hvalues
  have hmember : Crate.labelSizes ∈ Crate.label.spec.memberTypes := by
    have htypes : Crate.label.spec.memberTypes = [Crate.labelSizes] := by with_unfolding_all rfl
    rw [htypes]
    exact List.mem_singleton_self _
  exact ⟨keywords, hdiscover, hheld, hmember,
    (lexicalEnums_of_discovered hdiscover hheld).resolves _ _ hstands _ hmember⟩

end KeywordEngine
