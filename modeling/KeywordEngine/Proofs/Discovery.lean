import KeywordEngine.Proofs.Declaration
import KeywordEngine.Proofs.Lookup
import KeywordEngine.Proofs.ParameterSets
import KeywordEngine.Proofs.Success

/-!
# Discovery finds what is declared

Discovery succeeds exactly for the modules whose types obey the rules, and what it finds are the
keywords that the types declare.

* `readString_eq_ok` to `readMember_eq_ok`: when a marker or a member is read, and as what.
* `KeywordSpec.validate_eq_ok`: what validation accepts, for every parameter set at once.
* `readKeyword_eq_ok`, `readKeywords_eq_ok`: a type and a level, by induction on the tree of types.
* `discover_eq_ok`: a module.
-/

namespace KeywordEngine

open Success

namespace Discovery

variable {owner argument : String} {a : AttributeRecord}

/-! ## Markers -/

theorem readString_eq_ok {r : Option String} :
    readString owner a argument = .ok r ↔ a.TextOrAbsent argument ∧ a.text? argument = r := by
  unfold readString AttributeRecord.TextOrAbsent AttributeRecord.text?
  cases a.argument? argument with
  | none => simp
  | some v => cases v <;> simp

theorem readFlag_eq_ok {r : Bool} :
    readFlag owner a argument = .ok r ↔ a.FlagOrAbsent argument ∧ a.flag argument = r := by
  unfold readFlag AttributeRecord.FlagOrAbsent AttributeRecord.flag
  cases a.argument? argument with
  | none => simp
  | some v => cases v <;> simp

theorem readPosition_eq_ok {r : Option UInt32} :
    readPosition owner a = .ok r ↔ a.PositionOrAbsent ∧ a.position? = r := by
  unfold readPosition AttributeRecord.PositionOrAbsent AttributeRecord.position?
  cases a.argument? Marker.positionArgument with
  | none => simp
  | some v =>
    cases v with
    | bool b => simp
    | string s => simp
    | int n =>
      by_cases hsentinel : n = Marker.notPositional
      · simp [hsentinel]
      · simp only [AttributeValue.int.injEq, Option.some.injEq, forall_eq', hsentinel, if_false,
          false_or, exists_eq_left']
        split
        · rename_i hrange
          exact ⟨fun h => ⟨hrange, Except.ok.inj h⟩, fun h => congrArg _ h.2⟩
        · rename_i hrange
          exact ⟨fun h => (nomatch h), fun h => absurd h.1 hrange⟩

theorem readMode_eq_ok {μ : Type} {ofText? : String → Option μ} {absent mode : μ} :
    readMode ofText? absent owner a argument = .ok mode ↔
      a.ModeOrAbsent argument ofText? ∧ a.mode argument ofText? absent = mode := by
  unfold readMode readString AttributeRecord.ModeOrAbsent AttributeRecord.mode AttributeRecord.text?
  cases a.argument? argument with
  | none => simp
  | some v =>
    cases v with
    | bool b => simp
    | int n => simp
    | string s =>
      cases hs : ofText? s with
      | none => simp [hs]
      | some m => simp [hs]

theorem readMembership_eq_ok {r : String × SetMembership} :
    readMembership owner a = .ok r ↔ a.WellFormedParameter ∧ a.membership = r := by
  unfold readMembership
  simp only [bind_eq_ok, readFlag_eq_ok, readPosition_eq_ok, readString_eq_ok, pure_eq_ok]
  constructor
  · rintro ⟨-, ⟨hmandatory, rfl⟩, -, ⟨hposition, rfl⟩, -, ⟨hset, rfl⟩, rfl⟩
    exact ⟨⟨hmandatory, hposition, hset⟩, rfl⟩
  · rintro ⟨⟨hmandatory, hposition, hset⟩, rfl⟩
    exact ⟨_, ⟨hmandatory, rfl⟩, _, ⟨hposition, rfl⟩, _, ⟨hset, rfl⟩, rfl⟩

theorem readMemberships_eq_ok {markers : List AttributeRecord}
    {r : List (String × SetMembership)} :
    markers.mapM (readMembership owner) = .ok r ↔
      (∀ a ∈ markers, a.WellFormedParameter) ∧ markers.map (·.membership) = r :=
  mapM_eq_ok_iff fun _ _ => readMembership_eq_ok

/-! ## Members -/

/-- What a member declares. -/
def declaration (levels : List EnumTable) (m : MemberRecord) : MemberDeclaration :=
  match m.parameter? levels, m.property? levels with
  | some p, _ => .parameter p
  | none, some p => .property p
  | none, none => .nothing

theorem readMember_eq_ok {levels : List EnumTable} {keyword : String} {m : MemberRecord}
    {d : MemberDeclaration} :
    readMember levels keyword m = .ok d ↔ m.WellFormed ∧ declaration levels m = d := by
  have hparameters : m.WellFormed ↔
      (∀ a ∈ m.parameterMarkers, a.WellFormedParameter) ∧
        (m.parameterMarkers = [] →
          ∀ a, m.propertyMarker? = some a → a.FlagOrAbsent Marker.mandatoryArgument) := by
    simp only [MemberRecord.parameterMarkers, List.mem_filter, List.filter_eq_nil_iff]
    exact ⟨fun h => ⟨fun a ha => h.parameter a ha.1 ha.2, h.property⟩,
      fun h => ⟨fun a ha hmarker => h.1 a ⟨ha, hmarker⟩, h.2⟩⟩
  have hfilter : m.attributes.filter (·.is Marker.parameter) = m.parameterMarkers := rfl
  rw [hparameters]
  unfold readMember declaration MemberRecord.parameter? MemberRecord.property?
  simp only [hfilter]
  cases hmarkers : m.parameterMarkers with
  | nil =>
    cases hproperty : m.propertyMarker? with
    | none =>
      simp only [MemberRecord.propertyMarker?] at hproperty
      simp [hproperty]
    | some marker =>
      simp only [MemberRecord.propertyMarker?] at hproperty
      simp only [hproperty, bind_eq_ok, pure_eq_ok, readFlag_eq_ok]
      constructor
      · rintro ⟨-, ⟨hflag, rfl⟩, rfl⟩
        exact ⟨⟨by simp, by simpa using hflag⟩, rfl⟩
      · rintro ⟨⟨-, hflag⟩, rfl⟩
        exact ⟨_, ⟨hflag trivial marker rfl, rfl⟩, rfl⟩
  | cons marker others =>
    have hmemberships : m.memberships =
        .ofList ((marker :: others).map (·.membership)) := by
      rw [← hmarkers]
      rfl
    simp only [bind_eq_ok, pure_eq_ok, readMemberships_eq_ok, hmemberships]
    constructor
    · rintro ⟨-, ⟨hmarkers, rfl⟩, rfl⟩
      exact ⟨⟨hmarkers, fun h => by cases h⟩, rfl⟩
    · rintro ⟨⟨hmarkers, -⟩, rfl⟩
      exact ⟨_, ⟨hmarkers, rfl⟩, rfl⟩

theorem readMembers_eq_ok {levels : List EnumTable} {keyword : String}
    {members : List MemberRecord} {r : List MemberDeclaration} :
    members.mapM (readMember levels keyword) = .ok r ↔
      (∀ m ∈ members, m.WellFormed) ∧ members.map (declaration levels) = r :=
  mapM_eq_ok_iff fun _ _ => readMember_eq_ok

theorem parametersOf_declaration (levels : List EnumTable) (members : List MemberRecord) :
    parametersOf (members.map (declaration levels)) = members.filterMap (·.parameter? levels) := by
  unfold parametersOf
  rw [List.filterMap_map]
  refine List.filterMap_congr fun m _ => ?_
  simp only [declaration, Function.comp]
  cases m.parameter? levels with
  | some p => rfl
  | none => cases m.property? levels <;> rfl

theorem propertiesOf_declaration (levels : List EnumTable) (members : List MemberRecord) :
    propertiesOf (members.map (declaration levels)) = members.filterMap (·.property? levels) := by
  unfold propertiesOf
  rw [List.filterMap_map]
  refine List.filterMap_congr fun m _ => ?_
  simp only [declaration, Function.comp]
  cases hp : m.parameter? levels with
  | some p => rw [MemberRecord.property?_of_parameter? hp]
  | none => cases m.property? levels <;> rfl

end Discovery

/-! ## Validation -/

theorem validateSiblings_eq_ok {siblings : List KeywordSpec} {scope : String} :
    validateSiblings siblings scope = .ok () ↔ (siblings.map (Text.fold ·.name)).Nodup := by
  unfold validateSiblings
  rw [← firstRepeated?_eq_none_iff]
  cases firstRepeated? (Text.fold ·.name) siblings <;> simp

namespace KeywordSpec

variable {k : KeywordSpec}

theorem validatePositions_eq_ok :
    k.validatePositions = .ok () ↔ ∀ set, (k.parameters.filterMap (·.position? set)).Nodup := by
  have hrepeated : ∀ set, k.repeatedPosition? set = none ↔
      (k.parameters.filterMap (·.position? set)).Nodup := by
    intro set
    unfold repeatedPosition?
    rw [firstRepeated?_eq_none_iff, List.map_id]
  have hsets : k.validatePositions = .ok () ↔
      ∀ set ∈ k.setNames ++ [allSets], k.repeatedPosition? set = none := by
    have hfound : ((k.setNames ++ [allSets]).findSome? fun set =>
        (k.repeatedPosition? set).map (set, ·)) = none ↔
        ∀ set ∈ k.setNames ++ [allSets], k.repeatedPosition? set = none := by
      rw [List.findSome?_eq_none_iff]
      simp only [Option.map_eq_none_iff]
    rw [← hfound]
    unfold validatePositions
    split
    · rename_i h
      simp [h]
    · rename_i h
      simp [h]
  rw [hsets]
  constructor
  · intro h set
    by_cases hset : set ∈ k.setNames
    · exact (hrepeated set).1 (h set (by simp [hset]))
    · rw [List.filterMap_congr fun p hp => position?_of_not_mem_setNames hset hp]
      exact (hrepeated allSets).1 (h allSets (by simp))
  · intro h set _
    exact (hrepeated set).2 (h set)

/-- What validation accepts. -/
theorem validate_eq_ok :
    k.validate = .ok () ↔ isIdentifier k.name = true ∧ (k.nested = false → k.use = .optionalMany) ∧
      (k.body = .command → k.children = []) ∧ (k.children.map (Text.fold ·.name)).Nodup ∧
      ∀ set, (k.parameters.filterMap (·.position? set)).Nodup := by
  have hsiblings := @validateSiblings_eq_ok k.children k.name
  have hchecks : (do
      validateSiblings k.children k.name
      k.validatePositions) = .ok () ↔
        (k.children.map (Text.fold ·.name)).Nodup ∧
        ∀ set, (k.parameters.filterMap (·.position? set)).Nodup := by
    rw [bind_eq_ok, ← hsiblings, ← validatePositions_eq_ok]
    constructor
    · rintro ⟨⟨⟩, h⟩
      exact h
    · intro h
      exact ⟨(), h⟩
  have huse : ¬ (!k.nested && decide (k.use ≠ .optionalMany)) = true ↔
      (k.nested = false → k.use = .optionalMany) := by simp
  unfold validate
  simp only [ite_throw_eq_ok, ite_else_throw_eq_ok, huse]
  refine and_congr_right fun _ => and_congr_right fun _ => ?_
  rw [← hchecks]
  by_cases hbody : k.body = .command
  · simp only [hbody, if_true]
    cases hchildren : k.children with
    | nil => simp
    | cons child others => simp
  · simp [hbody]

end KeywordSpec

namespace Discovery

/-! ## Types -/

theorem keywordMarker?_eq_some {t : TypeRecord} {a : AttributeRecord}
    (h : keywordMarker? t = some a) : isKeywordType t = true ∧ t.marker = a := by
  refine ⟨by simp [isKeywordType, h], ?_⟩
  unfold keywordMarker? at h
  split at h
  · simp [TypeRecord.marker, h]
  · simp at h

/-- The rules that validation checks a second time hold of a well-formed type. -/
theorem validate_declared {module : ModuleRef} {levels : List EnumTable} {isNested : Bool}
    {t : TypeRecord} :
    (t.declared module levels isNested).validate = .ok () ↔
      isIdentifier t.name = true ∧ (isNested = false → t.use = .optionalMany) ∧
        (t.body = .command → keywordTypes t.nested = []) ∧ DistinctNames t.nested ∧
        ∀ set, (t.settableMembers.filterMap (·.position? set)).Nodup := by
  have hnames : ∀ levels, ((keywordTypes t.nested).map (·.declared module levels true)).map
      (Text.fold ·.name) = (keywordTypes t.nested).map (Text.fold ·.name) := by
    intro levels
    rw [List.map_map]
    refine List.map_congr_left fun t' _ => ?_
    show Text.fold (t'.declared module levels true).name = _
    rw [TypeRecord.declared_name]
  have hpositions : ∀ levels set,
      (t.settableMembers.filterMap (·.parameter? levels)).filterMap (·.position? set) =
        t.settableMembers.filterMap (·.position? set) := by
    intro levels set
    rw [List.filterMap_filterMap]
    exact List.filterMap_congr fun m _ => m.position?_parameter? levels set
  rw [KeywordSpec.validate_eq_ok, TypeRecord.declared_eq]
  simp only [TypeRecord.declaredWith, hnames, hpositions, List.map_eq_nil_iff]
  rfl

/-- One type, once the types nested in it are settled. -/
theorem readKeyword_eq_ok {module : ModuleRef} {levels : List EnumTable} {isNested : Bool}
    {t : TypeRecord} {k : KeywordSpec}
    (hnested : ∀ ks, readKeywords module (enumsOf t.nested :: levels) true t.name [] t.nested = .ok ks ↔
      (∀ b t', Reaches true t.nested b t' → t'.WellFormed b) ∧ DistinctNames t.nested ∧
        declaredKeywords module (enumsOf t.nested :: levels) true t.nested = ks) :
    readKeyword module levels isNested t.marker t = .ok k ↔
      (t.WellFormed isNested ∧ ∀ b t', Reaches true t.nested b t' → t'.WellFormed b) ∧
        t.declared module levels isNested = k := by
  obtain ⟨name, base, kind, attributes, members, enumFields, types⟩ := t
  have huse : ∀ use, ¬ (!isNested && decide (use ≠ UseMode.optionalMany)) = true ↔
      (isNested = false → use = .optionalMany) := by simp
  have hfind : types.find? isKeywordType = none ↔ keywordTypes types = [] := by
    simp [keywordTypes]
  unfold readKeyword
  simp only [bind_eq_ok, ite_throw_eq_ok, huse, readMode_eq_ok, readString_eq_ok, readMembers_eq_ok,
    and_assoc, exists_and_left, exists_eq_left']
  rw [parametersOf_declaration, propertiesOf_declaration]
  let t : TypeRecord := ⟨name, base, kind, attributes, members, enumFields, types⟩
  constructor
  · rintro ⟨hbody, huse, hset, hroot, hmembers, h⟩
    obtain ⟨hcommand, h⟩ : (t.body = .command → keywordTypes types = []) ∧ (do
        let children ← readKeywords module (enumsOf types :: levels) true name [] types
        (t.declaredWith module (enumsOf types :: levels) isNested children).validate
        return t.declaredWith module (enumsOf types :: levels) isNested children) = .ok k := by
      split at h
      · split at h
        · exact absurd h throw_bind_ne_ok
        · rename_i hnone
          exact ⟨fun _ => hfind.1 (Option.eq_none_iff_forall_ne_some.2 hnone), h⟩
      · rename_i hother
        exact ⟨fun hcommand => absurd hcommand hother, h⟩
    simp only [bind_eq_ok, pure_eq_ok] at h
    obtain ⟨children, hchildren, ⟨⟩, hvalid, rfl⟩ := h
    obtain ⟨hreached, hsiblings, rfl⟩ := (hnested _).1 hchildren
    have hdeclared := t.declared_eq_declaredWith module levels isNested
    rw [← hdeclared, validate_declared] at hvalid
    obtain ⟨hname, -, -, -, hpositions⟩ := hvalid
    exact ⟨⟨hname, hbody, huse, hset, hroot, hcommand, hmembers, hpositions, hsiblings⟩, hreached,
      hdeclared⟩
  · rintro ⟨wf, hreached, rfl⟩
    have hvalid : (t.declared module levels isNested).validate = .ok () :=
      validate_declared.2 ⟨wf.name, wf.root, wf.command, wf.siblings, wf.positions⟩
    have h : (do
        let children ← readKeywords module (enumsOf types :: levels) true name [] types
        (t.declaredWith module (enumsOf types :: levels) isNested children).validate
        return t.declaredWith module (enumsOf types :: levels) isNested children) =
          .ok (t.declared module levels isNested) := by
      simp only [bind_eq_ok, pure_eq_ok]
      refine ⟨_, (hnested _).2 ⟨hreached, wf.siblings, rfl⟩, (), ?_⟩
      rw [TypeRecord.declared_eq_declaredWith] at hvalid ⊢
      exact ⟨hvalid, rfl⟩
    refine ⟨wf.body, wf.use, wf.defaultSet, wf.root, wf.members, ?_⟩
    split
    · rename_i hcommand
      split
      · rename_i child hchild
        rw [hfind.2 (wf.command hcommand)] at hchild
        cases hchild
      · exact h
    · exact h

/-- The types of a level. -/
theorem readKeywords_eq_ok {module : ModuleRef} {levels : List EnumTable} {isNested : Bool}
    {scope : String} {seen : List String} {types : List TypeRecord} {ks : List KeywordSpec} :
    readKeywords module levels isNested scope seen types = .ok ks ↔
      (∀ b t, Reaches isNested types b t → t.WellFormed b) ∧ DistinctNames types ∧
        (∀ t ∈ keywordTypes types, Text.fold t.name ∉ seen) ∧
        declaredKeywords module levels isNested types = ks := by
  induction types using types_induction generalizing levels isNested scope seen ks with
  | nil =>
    rw [forall_reaches_iff]
    simp [readKeywords, keywordTypes, DistinctNames, declaredKeywords]
  | cons t rest ihnested ih =>
    have hnested : ∀ ks, readKeywords module (enumsOf t.nested :: levels) true t.name [] t.nested =
        .ok ks ↔ (∀ b t', Reaches true t.nested b t' → t'.WellFormed b) ∧ DistinctNames t.nested ∧
          declaredKeywords module (enumsOf t.nested :: levels) true t.nested = ks := by
      intro ks
      rw [ihnested]
      simp
    rw [forall_reaches_iff]
    unfold readKeywords declaredKeywords DistinctNames
    cases hmarker : keywordMarker? t with
    | none =>
      have hother : ¬ isKeywordType t = true := by simp [isKeywordType, hmarker]
      rw [keywordTypes_cons_of_other hother, if_neg hother, ← forall_reaches_iff]
      exact ih
    | some marker =>
      obtain ⟨hkeyword, rfl⟩ := keywordMarker?_eq_some hmarker
      rw [keywordTypes_cons_of_keyword hkeyword, if_pos hkeyword, List.forall_mem_cons,
        List.map_cons, List.nodup_cons, List.forall_mem_cons, ← forall_reaches_iff]
      simp only [bind_eq_ok, ite_throw_eq_ok, pure_eq_ok, readKeyword_eq_ok hnested, ih]
      constructor
      · rintro ⟨-, ⟨ht, rfl⟩, hseen, -, ⟨hrest, hnames, hafter, rfl⟩, rfl⟩
        rw [TypeRecord.declared_name] at hseen hafter
        refine ⟨⟨ht, hrest⟩, ⟨fun hmem => ?_, hnames⟩, ⟨hseen, fun t' ht' hmem => ?_⟩, rfl⟩
        · obtain ⟨t', ht', hname⟩ := List.mem_map.1 hmem
          exact hafter t' ht' (by simp [hname])
        · exact hafter t' ht' (List.mem_cons_of_mem _ hmem)
      · rintro ⟨⟨ht, hrest⟩, ⟨hfirst, hnames⟩, ⟨hseen, hafter⟩, rfl⟩
        rw [← TypeRecord.declared_name module levels isNested t] at hfirst hseen
        refine ⟨_, ⟨ht, rfl⟩, hseen, _, ⟨hrest, hnames, fun t' ht' hmem => ?_, rfl⟩, rfl⟩
        rcases List.mem_cons.1 hmem with hname | hmem
        · exact hfirst (List.mem_map.2 ⟨t', ht', hname⟩)
        · exact hafter t' ht' hmem

/-! ## Modules -/

/-- The keywords that a module declares, by name. -/
def declaredModule (m : ModuleMetadata) : SortedMap String KeywordSpec :=
  .ofList ((declaredKeywords m.module [enumsOf m.types] false m.types).map fun k => (k.name, k))

theorem discover_eq_ok {m : ModuleMetadata} {keywords : SortedMap String KeywordSpec} :
    discover m = .ok keywords ↔ m.WellFormed ∧ declaredModule m = keywords := by
  unfold discover declaredModule
  simp only [bind_eq_ok, pure_eq_ok, readKeywords_eq_ok]
  constructor
  · rintro ⟨-, ⟨htypes, hnames, -, rfl⟩, rfl⟩
    exact ⟨⟨htypes, hnames⟩, rfl⟩
  · rintro ⟨⟨htypes, hnames⟩, rfl⟩
    exact ⟨_, ⟨htypes, hnames, by simp, rfl⟩, rfl⟩

theorem discover_of_isOk {m : ModuleMetadata} (h : (discover m).isOk = true) :
    discover m = .ok (declaredModule m) := by
  cases hm : discover m with
  | error e =>
    rw [hm] at h
    cases h
  | ok keywords => rw [(discover_eq_ok.1 hm).2]

/-- The keywords that a module declares are found by the exact names of its types. -/
theorem get?_declaredModule {m : ModuleMetadata} (h : DistinctNames m.types) {name : String}
    {k : KeywordSpec} :
    (declaredModule m).get? name = some k ↔
      ∃ t ∈ keywordTypes m.types, t.name = name ∧
        t.declared m.module [enumsOf m.types] false = k := by
  have hentries : ((declaredKeywords m.module [enumsOf m.types] false m.types).map fun k =>
      (k.name, k)) = (keywordTypes m.types).map fun t =>
        (t.name, t.declared m.module [enumsOf m.types] false) := by
    rw [declaredKeywords_eq, List.map_map]
    refine List.map_congr_left fun t _ => ?_
    show (_, _) = (_, _)
    rw [TypeRecord.declared_name]
  have hnames : (((keywordTypes m.types).map fun t =>
      (t.name, t.declared m.module [enumsOf m.types] false)).map (·.1)).Nodup := by
    have hfolded : (((keywordTypes m.types).map (·.name)).map Text.fold).Nodup := by
      rw [List.map_map]
      exact h
    rw [List.map_map]
    exact hfolded.of_map Text.fold
  unfold declaredModule
  rw [hentries, SortedMap.get?_ofList_iff hnames]
  simp

/-- Discovery accepts exactly the modules that obey the rules, and what it finds under a name is the
keyword that the type of that name at module root declares. -/
theorem discover_eq_ok_iff (m : ModuleMetadata) :
    ((∃ keywords, discover m = .ok keywords) ↔ m.WellFormed) ∧
      ∀ keywords, discover m = .ok keywords ↔
        m.WellFormed ∧ ∀ name k, keywords.get? name = some k ↔
          ∃ t ∈ m.types, isKeywordType t = true ∧ t.name = name ∧
            t.declared m.module [enumsOf m.types] false = k := by
  have hlookup : DistinctNames m.types → ∀ name k, (declaredModule m).get? name = some k ↔
      ∃ t ∈ m.types, isKeywordType t = true ∧ t.name = name ∧
        t.declared m.module [enumsOf m.types] false = k := by
    intro h name k
    rw [get?_declaredModule h]
    simp [keywordTypes, and_assoc]
  constructor
  · constructor
    · rintro ⟨keywords, h⟩
      exact (discover_eq_ok.1 h).1
    · intro h
      exact ⟨declaredModule m, discover_eq_ok.2 ⟨h, rfl⟩⟩
  · intro keywords
    rw [discover_eq_ok]
    refine and_congr_right fun h => ⟨?_, fun hkeywords => ?_⟩
    · rintro rfl
      exact hlookup h.names
    · refine SortedMap.ext_get? fun name => Option.ext fun k => ?_
      rw [hlookup h.names, hkeywords]

end Discovery

end KeywordEngine
