import KeywordEngine.Proofs.EnumConstraint

/-!
# Parameter markers

What modules write to say how a member takes part in parameter sets is read back as it was meant:
one marker for each set, in any order and under names in any namespace, gives these sets.

* `AttributeRecord.Restates`: the same attribute, but for a namespace and the case of arguments.
* `Marker.toInt_encodePosition`: positions keep their number, and none is taken for "not positional".
* `AttributeRecord.BuiltFor`, `membership_of_builtFor`: a marker says what it was built for.
* `MemberRecord.Carries`, `readMember_of_carries`: a member with one marker for each set.
* `readAs_of_carries`: the same, up to the keywords of an accepted module.
* `readsMarkers`: the law; `not_readsMarkers_remark`: a member without markers is no parameter.
-/

namespace KeywordEngine

/-! ## Names -/

theorem Text.sameName_congr {a b name : String} (h : Text.sameName a b = true) :
    Text.sameName a name = Text.sameName b name := by
  unfold Text.sameName
  rw [Text.sameName_iff.1 h]

/-- Names differ where their characters differ in their small forms. -/
theorem Text.sameName_eq_false_of_toList {a b : String}
    (h : a.toList.map Char.toLower ≠ b.toList.map Char.toLower) : Text.sameName a b = false := by
  rw [Bool.eq_false_iff, ne_eq, Text.sameName_iff]
  intro heq
  have htoList := congrArg String.toList heq
  simp only [Text.fold, String.toList_map] at htoList
  exact h htoList

private theorem takeWhile_append_cons {α : Type} {p : α → Bool} {c : α} (hc : p c = false)
    (l r : List α) : (l ++ c :: r).takeWhile p = l.takeWhile p := by
  induction l with
  | nil => simp [hc]
  | cons a rest ih => simp only [List.cons_append, List.takeWhile_cons, ih]

/-- What stands before the last dot or plus sign of a name does not matter. -/
theorem TypeName.simpleName_append {before separator name : String}
    (h : separator = "." ∨ separator = "+") :
    TypeName.simpleName (before ++ separator ++ name) = TypeName.simpleName name := by
  unfold TypeName.simpleName
  rcases h with rfl | rfl <;> simp [takeWhile_append_cons]

namespace AttributeRecord

/-- `a` says what `b` says: it has the name of `b`, perhaps in a namespace, and the arguments of
`b`, perhaps under names in another case. -/
structure Restates (a b : AttributeRecord) : Prop where
  name : a.name = b.name ∨ ∃ before separator, (separator = "." ∨ separator = "+") ∧
    a.name = before ++ separator ++ b.name
  arguments : List.Forall₂ (fun x y => Text.sameName x.1 y.1 = true ∧ x.2 = y.2)
    a.arguments b.arguments

namespace Restates

variable {a b : AttributeRecord}

theorem is_eq (h : a.Restates b) (marker : String) : a.is marker = b.is marker := by
  unfold AttributeRecord.is
  obtain hname | ⟨before, separator, hseparator, hname⟩ := h.name
  · rw [hname]
  · rw [hname, TypeName.simpleName_append hseparator]

theorem argument?_eq (h : a.Restates b) (name : String) : a.argument? name = b.argument? name := by
  have harguments := h.arguments
  unfold argument?
  generalize a.arguments = l at harguments
  generalize b.arguments = r at harguments
  induction harguments with
  | nil => rfl
  | @cons x y l r hxy _ ih =>
    rw [List.find?_cons, List.find?_cons, Text.sameName_congr hxy.1]
    cases Text.sameName y.1 name with
    | true => simp [hxy.2]
    | false => exact ih

/-- Restating a marker keeps what it says of a parameter. -/
theorem membership_eq (h : a.Restates b) : a.membership = b.membership := by
  unfold membership text? flag position?
  simp only [h.argument?_eq]

theorem wellFormedParameter (h : a.Restates b) (hb : b.WellFormedParameter) :
    a.WellFormedParameter where
  mandatory v hv := hb.mandatory v (h.argument?_eq _ ▸ hv)
  position v hv := hb.position v (h.argument?_eq _ ▸ hv)
  set v hv := hb.set v (h.argument?_eq _ ▸ hv)

end Restates

end AttributeRecord

/-! ## Built markers -/

namespace Marker

/-- A position keeps its number. -/
theorem toInt_encodePosition (p : UInt32) : (encodePosition (some p)).toInt = p.toNat := by
  show (p.toUInt64.toInt64.toBitVec).toInt = _
  have hlt := p.toNat_lt
  rw [UInt64.toBitVec_toInt64, BitVec.toInt_eq_toNat_of_lt]
  · rw [UInt64.toNat_toBitVec, UInt32.toNat_toUInt64]
  · rw [UInt64.toNat_toBitVec, UInt32.toNat_toUInt64]
    omega

/-- No position is taken for "not positional". -/
theorem encodePosition_ne_notPositional (p : UInt32) : encodePosition (some p) ≠ notPositional := by
  intro h
  have hpos := toInt_encodePosition p
  rw [h] at hpos
  have : notPositional.toInt = -2147483648 := by decide
  omega

variable (m : SetMembership) (named : Option String)

theorem argument?_mandatory :
    (ofParameter m named).argument? mandatoryArgument = some (.bool m.mandatory) := by
  simp [AttributeRecord.argument?, ofParameter]

theorem argument?_position :
    (ofParameter m named).argument? positionArgument = some (.int (encodePosition m.position)) := by
  have hmandatory : Text.sameName mandatoryArgument positionArgument = false :=
    Text.sameName_eq_false_of_toList (by decide)
  simp [AttributeRecord.argument?, ofParameter, hmandatory]

theorem argument?_set :
    (ofParameter m named).argument? setArgument = some (.string (named.getD allSets)) := by
  have hmandatory : Text.sameName mandatoryArgument setArgument = false :=
    Text.sameName_eq_false_of_toList (by decide)
  have hposition : Text.sameName positionArgument setArgument = false :=
    Text.sameName_eq_false_of_toList (by decide)
  simp [AttributeRecord.argument?, ofParameter, hmandatory, hposition]

theorem wellFormedParameter_ofParameter : (ofParameter m named).WellFormedParameter where
  mandatory v hv := by
    rw [argument?_mandatory] at hv
    exact ⟨m.mandatory, (Option.some.inj hv).symm⟩
  position v hv := by
    rw [argument?_position] at hv
    refine ⟨_, (Option.some.inj hv).symm, ?_⟩
    cases m.position with
    | none => exact .inl rfl
    | some p =>
      have hlt := p.toNat_lt
      refine .inr ⟨?_, ?_⟩ <;> rw [toInt_encodePosition]
      · exact Int.natCast_nonneg _
      · simp only [UInt32.size]
        omega
  set v hv := by
    rw [argument?_set] at hv
    exact ⟨_, (Option.some.inj hv).symm⟩

theorem position?_ofParameter : (ofParameter m named).position? = m.position := by
  unfold AttributeRecord.position?
  rw [argument?_position]
  cases m.position with
  | none => rfl
  | some p => simp [encodePosition_ne_notPositional, toInt_encodePosition]

/-- A marker says of the set that it names what it was built for, and of all sets if it names
none. -/
theorem membership_ofParameter (hnamed : named ≠ some "") :
    (ofParameter m named).membership = (named.getD allSets, m) := by
  have hset : named.getD allSets ≠ "" := by
    cases named with
    | none => decide
    | some set => exact fun h => hnamed (congrArg some h)
  unfold AttributeRecord.membership AttributeRecord.text? AttributeRecord.flag
  rw [argument?_set, argument?_mandatory, position?_ofParameter]
  simp [Option.filter, hset]

theorem is_ofParameter : (ofParameter m named).is parameter = true := by
  have hsimple : TypeName.simpleName parameter = parameter := by decide +kernel
  simp [AttributeRecord.is, ofParameter, hsimple]

end Marker

/-- A marker that was built for one set, with its name or, for all sets, without a name, and perhaps
restated since. -/
def AttributeRecord.BuiltFor (a : AttributeRecord) (entry : String × SetMembership) : Prop :=
  ∃ named : Option String, named.getD allSets = entry.1 ∧
    a.Restates (Marker.ofParameter entry.2 named)

namespace AttributeRecord.BuiltFor

variable {a : AttributeRecord} {entry : String × SetMembership}

theorem is_parameter (h : a.BuiltFor entry) : a.is Marker.parameter = true := by
  obtain ⟨named, -, hrestates⟩ := h
  rw [hrestates.is_eq, Marker.is_ofParameter]

theorem wellFormedParameter (h : a.BuiltFor entry) : a.WellFormedParameter := by
  obtain ⟨named, -, hrestates⟩ := h
  exact hrestates.wellFormedParameter (Marker.wellFormedParameter_ofParameter _ _)

theorem membership_eq (h : a.BuiltFor entry) (hset : entry.1 ≠ "") : a.membership = entry := by
  obtain ⟨named, hnamed, hrestates⟩ := h
  rw [hrestates.membership_eq, Marker.membership_ofParameter, hnamed]
  rintro rfl
  exact hset hnamed.symm

/-- Markers say of their sets what they were built for, one by one. -/
theorem map_membership {markers : List AttributeRecord} {entries : List (String × SetMembership)}
    (h : List.Forall₂ BuiltFor markers entries) (hsets : ∀ entry ∈ entries, entry.1 ≠ "") :
    markers.map (·.membership) = entries := by
  induction h with
  | nil => rfl
  | cons hbuilt _ ih =>
    rw [List.map_cons, hbuilt.membership_eq (hsets _ List.mem_cons_self),
      ih fun entry hentry => hsets entry (List.mem_cons_of_mem _ hentry)]

end AttributeRecord.BuiltFor

/-! ## Marked members -/

/-- A map is built from its entries in any order. -/
theorem SortedMap.ofList_eq_of_perm {κ α : Type} [Ord κ] [Std.TransOrd κ] [Std.LawfulEqOrd κ]
    [DecidableEq κ] {l : List (κ × α)} {m : SortedMap κ α} (h : l.Perm m.toList) :
    SortedMap.ofList l = m := by
  have hkeys : (l.map (·.1)).Nodup := (h.map _).nodup_iff.2 m.nodup_keys
  apply SortedMap.ext_get?
  intro k
  ext a
  rw [SortedMap.get?_ofList_iff hkeys, h.mem_iff, SortedMap.mem_toList_iff]

namespace MemberRecord

variable {m : MemberRecord} {sets : SortedMap String SetMembership}

/-- The member has exactly one parameter marker built for each of the sets, in any order and among
any other attributes. -/
def Carries (m : MemberRecord) (sets : SortedMap String SetMembership) : Prop :=
  ∃ markers others, m.attributes.Perm (markers ++ others) ∧
    List.Forall₂ AttributeRecord.BuiltFor markers sets.toList ∧
    ∀ a ∈ others, a.is Marker.parameter = false

namespace Carries

theorem parameterMarkers_perm (h : m.Carries sets) : ∃ markers,
    m.parameterMarkers.Perm markers ∧
      List.Forall₂ AttributeRecord.BuiltFor markers sets.toList := by
  obtain ⟨markers, others, hperm, hbuilt, hothers⟩ := h
  refine ⟨markers, ?_, hbuilt⟩
  have hmarkers : ∀ a ∈ markers, a.is Marker.parameter = true := by
    intro a ha
    obtain ⟨entry, -, hentry⟩ := Success.exists_of_forall₂ hbuilt ha
    exact hentry.is_parameter
  have hnone : others.filter (·.is Marker.parameter) = [] :=
    List.filter_eq_nil_iff.2 fun a ha => by simp [hothers a ha]
  have hfilter := hperm.filter (·.is Marker.parameter)
  rwa [List.filter_append, List.filter_eq_self.2 hmarkers, hnone, List.append_nil] at hfilter

theorem exists_entry (h : m.Carries sets) {a : AttributeRecord} (ha : a ∈ m.parameterMarkers) :
    ∃ entry ∈ sets.toList, a.BuiltFor entry := by
  obtain ⟨markers, hperm, hbuilt⟩ := h.parameterMarkers_perm
  exact Success.exists_of_forall₂ hbuilt (hperm.mem_iff.1 ha)

theorem parameterMarkers_eq_nil_iff (h : m.Carries sets) :
    m.parameterMarkers = [] ↔ sets.isEmpty = true := by
  obtain ⟨markers, hperm, hbuilt⟩ := h.parameterMarkers_perm
  rw [SortedMap.isEmpty, List.isEmpty_iff_length_eq_zero, ← hbuilt.length_eq, ← hperm.length_eq,
    List.length_eq_zero_iff]

theorem wellFormed (h : m.Carries sets) (hsets : sets.isEmpty = false) : m.WellFormed where
  parameter a ha hmarker := by
    obtain ⟨entry, -, hentry⟩ := h.exists_entry (List.mem_filter.2 ⟨ha, hmarker⟩)
    exact hentry.wellFormedParameter
  property hnone := by
    -- a member with an entry has a marker, and is no property
    have hnil : m.parameterMarkers = [] := List.filter_eq_nil_iff.2 hnone
    rw [h.parameterMarkers_eq_nil_iff, hsets] at hnil
    cases hnil

theorem memberships_eq (h : m.Carries sets) (hnames : "" ∉ sets.keys) : m.memberships = sets := by
  obtain ⟨markers, hperm, hbuilt⟩ := h.parameterMarkers_perm
  have hsets : ∀ entry ∈ sets.toList, entry.1 ≠ "" := by
    intro entry hentry hempty
    exact hnames (List.mem_map.2 ⟨entry, hentry, hempty⟩)
  refine SortedMap.ofList_eq_of_perm ?_
  rw [← AttributeRecord.BuiltFor.map_membership hbuilt hsets]
  exact hperm.map _

theorem parameter?_eq (h : m.Carries sets) (hnames : "" ∉ sets.keys)
    (hsets : sets.isEmpty = false) (levels : List Discovery.EnumTable) :
    m.parameter? levels = some ⟨m.name, TypeName.decode m.signature,
      Discovery.lookupEnum levels (TypeName.decode m.signature), sets⟩ := by
  unfold parameter?
  split
  · rename_i hnil
    rw [h.parameterMarkers_eq_nil_iff, hsets] at hnil
    cases hnil
  · rw [h.memberships_eq hnames]

end Carries

end MemberRecord

namespace Discovery

variable {m : MemberRecord} {sets : SortedMap String SetMembership}

theorem readMember_of_carries (h : m.Carries sets) (hnames : "" ∉ sets.keys)
    (hsets : sets.isEmpty = false) (levels : List EnumTable) (keyword : String) :
    readMember levels keyword m = .ok (.parameter ⟨m.name, TypeName.decode m.signature,
      lookupEnum levels (TypeName.decode m.signature), sets⟩) := by
  refine readMember_eq_ok.2 ⟨h.wellFormed hsets, ?_⟩
  rw [declaration, h.parameter?_eq hnames hsets]

/-- Without markers a member is no parameter. -/
theorem readMember_ne_parameter (h : m.Carries sets) (hsets : sets.isEmpty = true)
    (levels : List EnumTable) (keyword : String) (p : ParameterSpec) :
    readMember levels keyword m ≠ .ok (.parameter p) := by
  intro hread
  have hdeclared := (readMember_eq_ok.1 hread).2
  have hnone : m.parameter? levels = none := by
    unfold MemberRecord.parameter?
    rw [h.parameterMarkers_eq_nil_iff.2 hsets]
  unfold declaration at hdeclared
  rw [hnone] at hdeclared
  cases hproperty : m.property? levels <;> simp [hproperty] at hdeclared

/-- A member is read as a parameter that takes part in exactly these sets, and is one of the
parameters of every keyword that an accepted module declares with it. -/
structure ReadAs (m : MemberRecord) (sets : SortedMap String SetMembership) : Prop where
  read : ∀ levels keyword, ∃ p, readMember levels keyword m = .ok (.parameter p) ∧
    p.name = m.name ∧ p.sets = sets
  declared : ∀ (module : ModuleMetadata) (keywords : SortedMap String KeywordSpec) (id : Nat)
    (k : Keyword) (levels : List (List TypeRecord)) (t : TypeRecord),
    discover module = .ok keywords → (Forest.mk id keywords.values).StandsFor module k levels t →
    m ∈ t.settableMembers → ∃ p ∈ k.spec.parameters, p.name = m.name ∧ p.sets = sets

theorem readAs_of_carries (h : m.Carries sets) (hnames : "" ∉ sets.keys)
    (hsets : sets.isEmpty = false) : ReadAs m sets where
  read levels keyword := ⟨_, readMember_of_carries h hnames hsets levels keyword, rfl, rfl⟩
  declared module keywords id k levels t hdiscover hstands hmember := by
    obtain ⟨isNested, -, hspec⟩ := hstands.spec_eq hdiscover
    rw [hspec, TypeRecord.declared_eq]
    exact ⟨_, List.mem_filterMap.2 ⟨m, hmember, h.parameter?_eq hnames hsets _⟩, rfl, rfl⟩

/-! ### A sample -/

namespace Ticket

/-- The sets that the number of a ticket takes part in. -/
def memberships : SortedMap String SetMembership :=
  .ofList [(allSets, ⟨none, false⟩), ("ByNumber", ⟨some 4294967295, true⟩)]

/-- The number of a ticket, with a marker for each set and one that is no parameter marker. -/
def number : MemberRecord where
  name := "Number"
  signature := "System.Int32"
  kind := .property
  settable := true
  attributes :=
    [⟨"Sale.Tickets+KeywordParameterAttribute", [("MANDATORY", .bool true),
      ("position", .int 4294967295), ("parameterSetName", .string "ByNumber")]⟩,
      Marker.ofProperty true, Marker.ofParameter ⟨none, false⟩ none]

/-- A remark on a ticket, without markers. -/
def remark : MemberRecord := ⟨"Remark", "System.String", .property, true, []⟩

theorem carries_number : number.Carries memberships := by
  have hlist : memberships.toList =
      [("ByNumber", ⟨some 4294967295, true⟩), (allSets, ⟨none, false⟩)] := by
    decide +kernel
  refine ⟨[_, _], [_], (List.Perm.swap _ _ _).cons _, ?_, ?_⟩
  · rw [hlist]
    refine .cons ⟨some "ByNumber", rfl, .inr ⟨"Sale.Tickets", "+", .inr rfl, rfl⟩, ?_⟩
      (.cons ⟨none, rfl, .inl rfl, ?_⟩ .nil)
    · refine .cons ⟨Text.sameName_of_toList (by decide), rfl⟩
        (.cons ⟨Text.sameName_of_toList (by decide), by decide⟩
          (.cons ⟨Text.sameName_of_toList (by decide), rfl⟩ .nil))
    · exact List.forall₂_same.2 fun _ _ => ⟨Text.sameName_refl _, rfl⟩
  · simp only [List.forall_mem_singleton]
    decide +kernel

end Ticket

/-- Parameter markers are read as they were meant. No position is taken for "not positional", a
marker without the name of a set speaks of all sets, and markers for some sets, in any order and
with names in any namespace and arguments in any case, are read as exactly these sets. A member
without markers is no parameter. -/
theorem readsMarkers :
    (∀ p, Marker.encodePosition (some p) ≠ Marker.notPositional) ∧
    (∀ owner membership, readMembership owner (Marker.ofParameter membership none) =
      .ok (allSets, membership)) ∧
    ∀ (sets : SortedMap String SetMembership) (m : MemberRecord), "" ∉ sets.keys → m.Carries sets →
      (sets.isEmpty = false → ReadAs m sets) ∧
      (sets.isEmpty = true →
        ∀ levels keyword p, readMember levels keyword m ≠ .ok (.parameter p)) := by
  refine ⟨Marker.encodePosition_ne_notPositional, fun owner membership => ?_,
    fun sets m hnames h => ?_⟩
  · exact readMembership_eq_ok.2 ⟨Marker.wellFormedParameter_ofParameter _ _,
      Marker.membership_ofParameter membership none (by simp)⟩
  · exact ⟨readAs_of_carries h hnames, readMember_ne_parameter h⟩

/-- A number with the greatest position in one set and none in the others. -/
theorem readsMarkers_number : "" ∉ Ticket.memberships.keys ∧
    Ticket.number.Carries Ticket.memberships ∧ Ticket.memberships.isEmpty = false ∧
    ∃ p, readMember [] "Ticket" Ticket.number = .ok (.parameter p) ∧
      p.sets = Ticket.memberships := by
  have hnames : "" ∉ Ticket.memberships.keys := by decide +kernel
  have hsets : Ticket.memberships.isEmpty = false := by decide +kernel
  have hread := (readsMarkers.2.2 Ticket.memberships Ticket.number hnames
    Ticket.carries_number).1 hsets
  obtain ⟨p, hp, -, hentries⟩ := hread.read [] "Ticket"
  exact ⟨hnames, Ticket.carries_number, hsets, p, hp, hentries⟩

/-- The markers for no set at all are no markers, and the member that carries them no parameter. -/
theorem not_readsMarkers_remark : Ticket.remark.settable = true ∧ Ticket.remark.Carries ∅ ∧
    readMember [] "Ticket" Ticket.remark = .ok .nothing ∧
    ¬ ∃ p, readMember [] "Ticket" Ticket.remark = .ok (.parameter p) ∧ p.sets = ∅ := by
  have hread : readMember [] "Ticket" Ticket.remark = .ok .nothing := rfl
  refine ⟨rfl, ⟨[], [], .nil, .nil, by simp⟩, hread, ?_⟩
  rintro ⟨p, hp, -⟩
  rw [hread] at hp
  cases hp

end Discovery

end KeywordEngine
