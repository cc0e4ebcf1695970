import KeywordEngine.Discovery

/-!
# Declarations

What the types of a module declare, said on the types alone: which of them are reached, when one of
them is well formed, and the keyword that it stands for. Nothing here depends on the order in which
discovery looks at things or stops.

* `Reaches`: the keyword types that are reached from the types of a level.
* `TypeRecord.WellFormed`: the rules for one keyword type.
* `TypeRecord.declared`: the keyword that a type declares, whether it is well formed or not.
-/

namespace KeywordEngine

open Discovery

/-! ## Arguments of markers -/

namespace AttributeRecord

variable (a : AttributeRecord) (argument : String)

/-- The argument is a text, if it is given. -/
def TextOrAbsent : Prop := ∀ v, a.argument? argument = some v → ∃ s, v = .string s

/-- The argument is a truth value, if it is given. -/
def FlagOrAbsent : Prop := ∀ v, a.argument? argument = some v → ∃ b, v = .bool b

/-- The argument is a text that names a mode, if it is given. -/
def ModeOrAbsent {μ : Type} (ofText? : String → Option μ) : Prop :=
  ∀ v, a.argument? argument = some v → ∃ s, v = .string s ∧ (ofText? s).isSome

/-- The position is a number that stands for no position or has 32 bits, if it is given. -/
def PositionOrAbsent : Prop :=
  ∀ v, a.argument? Marker.positionArgument = some v →
    ∃ n, v = .int n ∧ (n = Marker.notPositional ∨ 0 ≤ n.toInt ∧ n.toInt < UInt32.size)

/-- The text that is given for the argument. -/
def text? : Option String :=
  match a.argument? argument with
  | some (.string s) => some s
  | _ => none

/-- Whether the argument is given as true. -/
def flag : Bool :=
  match a.argument? argument with
  | some (.bool b) => b
  | _ => false

/-- The mode that the argument names, or else `absent`. -/
def mode {μ : Type} (ofText? : String → Option μ) (absent : μ) : μ :=
  ((a.text? argument).bind ofText?).getD absent

/-- The position that is given. -/
def position? : Option UInt32 :=
  match a.argument? Marker.positionArgument with
  | some (.int n) => if n = Marker.notPositional then none else some (.ofNat n.toInt.toNat)
  | _ => none

/-- The parameter set that a parameter marker speaks of and what it says. A marker without a set, or
with an empty name for it, speaks of all sets. -/
def membership : String × SetMembership :=
  (((a.text? Marker.setArgument).filter (· != "")).getD allSets,
    ⟨a.position?, a.flag Marker.mandatoryArgument⟩)

/-- The rules for a parameter marker. -/
structure WellFormedParameter : Prop where
  mandatory : a.FlagOrAbsent Marker.mandatoryArgument
  position : a.PositionOrAbsent
  set : a.TextOrAbsent Marker.setArgument

end AttributeRecord

/-! ## Members -/

namespace MemberRecord

variable (m : MemberRecord)

/-- The parameter markers of the member. -/
def parameterMarkers : List AttributeRecord := m.attributes.filter (·.is Marker.parameter)

/-- The first property marker of the member. -/
def propertyMarker? : Option AttributeRecord := m.attributes.find? (·.is Marker.property)

/-- What the parameter markers say of each set, a later one over an earlier one. -/
def memberships : SortedMap String SetMembership := .ofList (m.parameterMarkers.map (·.membership))

/-- The position of the member in a set: as its markers say of that set, or else of all sets. -/
def position? (set : String) : Option UInt32 :=
  (m.memberships.get? set <|> m.memberships.get? allSets).bind (·.position)

/-- The parameter that the member declares: any member with a parameter marker is one. -/
def parameter? (levels : List EnumTable) : Option ParameterSpec :=
  let typeName := TypeName.decode m.signature
  match m.parameterMarkers with
  | [] => none
  | _ :: _ => some ⟨m.name, typeName, lookupEnum levels typeName, m.memberships⟩

/-- The property that the member declares: a member with a property marker is one, unless it is a
parameter. -/
def property? (levels : List EnumTable) : Option PropertySpec :=
  let typeName := TypeName.decode m.signature
  match m.parameterMarkers with
  | [] => m.propertyMarker?.map fun a =>
      ⟨m.name, typeName, a.flag Marker.mandatoryArgument, lookupEnum levels typeName⟩
  | _ :: _ => none

theorem property?_of_parameter? {m : MemberRecord} {levels : List EnumTable} {p : ParameterSpec}
    (h : m.parameter? levels = some p) : m.property? levels = none := by
  unfold parameter? at h
  unfold property?
  cases hmarkers : m.parameterMarkers with
  | nil => simp [hmarkers] at h
  | cons a rest => rfl

theorem position?_parameter? (m : MemberRecord) (levels : List EnumTable) (set : String) :
    (m.parameter? levels).bind (·.position? set) = m.position? set := by
  cases hmarkers : m.parameterMarkers with
  | nil =>
    unfold parameter? position? memberships
    rw [hmarkers]
    rfl
  | cons a rest =>
    unfold parameter?
    rw [hmarkers]
    rfl

/-- The rules for the markers of a member. Of several property markers only the first counts, and
none of a parameter does. -/
structure WellFormed : Prop where
  parameter : ∀ a ∈ m.attributes, a.is Marker.parameter → a.WellFormedParameter
  property : (∀ a ∈ m.attributes, ¬ a.is Marker.parameter) →
    ∀ a, m.propertyMarker? = some a → a.FlagOrAbsent Marker.mandatoryArgument

end MemberRecord

/-! ## Types -/

namespace TypeRecord

variable (t : TypeRecord)

/-- The keyword marker of the type. -/
def marker : AttributeRecord := (t.attribute? Marker.keyword).getD ⟨Marker.keyword, []⟩

/-- The body mode that the type declares. -/
def body : BodyMode := t.marker.mode Marker.bodyArgument BodyMode.ofText? Marker.defaultBody

/-- The use mode that the type declares. -/
def use : UseMode := t.marker.mode Marker.useArgument UseMode.ofText? Marker.defaultUse

/-- The preferred parameter set that the type declares; an empty name is none. -/
def defaultSet : Option String := (t.marker.text? Marker.defaultSetArgument).filter (· != "")

/-- The members that count. -/
def settableMembers : List MemberRecord := t.members.filter (·.settable)

end TypeRecord

/-- The keyword types among the types of a level. -/
def keywordTypes (types : List TypeRecord) : List TypeRecord := types.filter isKeywordType

/-- The names of the keyword types of a level are different, also apart from case. -/
def DistinctNames (types : List TypeRecord) : Prop :=
  ((keywordTypes types).map (Text.fold ·.name)).Nodup

/-- The rules for a keyword type. -/
structure TypeRecord.WellFormed (isNested : Bool) (t : TypeRecord) : Prop where
  name : isIdentifier t.name = true
  body : t.marker.ModeOrAbsent Marker.bodyArgument BodyMode.ofText?
  use : t.marker.ModeOrAbsent Marker.useArgument UseMode.ofText?
  defaultSet : t.marker.TextOrAbsent Marker.defaultSetArgument
  root : isNested = false → t.use = .optionalMany
  command : t.body = .command → keywordTypes t.nested = []
  members : ∀ m ∈ t.settableMembers, m.WellFormed
  positions : ∀ set, (t.settableMembers.filterMap (·.position? set)).Nodup
  siblings : DistinctNames t.nested

/-- The keyword types that are reached from the types of a level: those of the level itself, and
those nested directly in one that is reached. -/
inductive Reaches (isNested : Bool) (types : List TypeRecord) : Bool → TypeRecord → Prop
  | here {t : TypeRecord} (listed : t ∈ keywordTypes types) : Reaches isNested types isNested t
  | nested {parent t : TypeRecord} {b : Bool} (reached : Reaches isNested types b parent)
      (listed : t ∈ keywordTypes parent.nested) : Reaches isNested types true t

/-- The rules for a module. -/
structure ModuleMetadata.WellFormed (m : ModuleMetadata) : Prop where
  types : ∀ isNested t, Reaches false m.types isNested t → t.WellFormed isNested
  names : DistinctNames m.types

/-! ## Declared keywords -/

section Declared

variable (module : ModuleRef)

/-- The keyword that a type declares, given the keywords nested in it. `levels` holds the enums of
the type itself and of the levels around it. -/
def TypeRecord.declaredWith (levels : List EnumTable) (isNested : Bool) (t : TypeRecord)
    (children : List KeywordSpec) : KeywordSpec where
  name := t.name
  body := t.body
  use := t.use
  defaultSet := t.defaultSet
  parameters := t.settableMembers.filterMap (·.parameter? levels)
  properties := t.settableMembers.filterMap (·.property? levels)
  children := children
  nested := isNested
  module := module

mutual
/-- The keyword that a type declares among the enums of the levels around it. -/
def TypeRecord.declared (levels : List EnumTable) (isNested : Bool) : TypeRecord → KeywordSpec
  | ⟨name, base, kind, attributes, members, enumFields, types⟩ =>
    let levels := enumsOf types :: levels
    TypeRecord.declaredWith module levels isNested
      ⟨name, base, kind, attributes, members, enumFields, types⟩
      (declaredKeywords levels true types)
termination_by structural t => t

/-- The keywords that the types of a level declare, in their order. -/
def declaredKeywords (levels : List EnumTable) (isNested : Bool) :
    List TypeRecord → List KeywordSpec
  | [] => []
  | t :: rest =>
    if isKeywordType t then
      t.declared levels isNested :: declaredKeywords levels isNested rest
    else declaredKeywords levels isNested rest
termination_by structural l => l
end

theorem declaredKeywords_eq (levels : List EnumTable) (isNested : Bool) (types : List TypeRecord) :
    declaredKeywords module levels isNested types =
      (keywordTypes types).map (·.declared module levels isNested) := by
  induction types with
  | nil => simp [declaredKeywords, keywordTypes]
  | cons t rest ih =>
    unfold declaredKeywords keywordTypes
    rw [List.filter_cons]
    split
    · rw [ih]
      rfl
    · exact ih

theorem TypeRecord.declared_eq_declaredWith (levels : List EnumTable) (isNested : Bool)
    (t : TypeRecord) :
    t.declared module levels isNested =
      t.declaredWith module (enumsOf t.nested :: levels) isNested
        (declaredKeywords module (enumsOf t.nested :: levels) true t.nested) := by
  obtain ⟨name, base, kind, attributes, members, enumFields, types⟩ := t
  rw [TypeRecord.declared]

theorem TypeRecord.declared_eq (levels : List EnumTable) (isNested : Bool) (t : TypeRecord) :
    t.declared module levels isNested =
      t.declaredWith module (enumsOf t.nested :: levels) isNested
        ((keywordTypes t.nested).map (·.declared module (enumsOf t.nested :: levels) true)) := by
  rw [TypeRecord.declared_eq_declaredWith, declaredKeywords_eq]

theorem TypeRecord.declared_name (levels : List EnumTable) (isNested : Bool) (t : TypeRecord) :
    (t.declared module levels isNested).name = t.name := by
  rw [TypeRecord.declared_eq]
  rfl

end Declared

/-! ## Levels -/

section Levels

variable {t : TypeRecord} {rest : List TypeRecord}

theorem keywordTypes_cons_of_keyword (h : isKeywordType t = true) :
    keywordTypes (t :: rest) = t :: keywordTypes rest := List.filter_cons_of_pos h

theorem keywordTypes_cons_of_other (h : ¬ isKeywordType t = true) :
    keywordTypes (t :: rest) = keywordTypes rest := List.filter_cons_of_neg h

end Levels

/-- Induction over the types of a level and everything nested in them. -/
theorem types_induction {P : List TypeRecord → Prop} (nil : P [])
    (cons : ∀ t rest, P t.nested → P rest → P (t :: rest)) : ∀ types, P types
  | [] => nil
  | t :: rest =>
    have : sizeOf t.nested < sizeOf (t :: rest) := by
      obtain ⟨name, base, kind, attributes, members, enumFields, nested⟩ := t
      simp only [List.cons.sizeOf_spec, TypeRecord.mk.sizeOf_spec]
      omega
    cons t rest (types_induction nil cons t.nested) (types_induction nil cons rest)
termination_by types => sizeOf types

theorem Reaches.of_nested {isNested b : Bool} {types : List TypeRecord} {parent t : TypeRecord}
    (hparent : parent ∈ keywordTypes types) (h : Reaches true parent.nested b t) :
    Reaches isNested types b t := by
  induction h with
  | here listed => exact .nested (.here hparent) listed
  | nested _ listed ih => exact .nested ih listed

theorem Reaches.cases_level {isNested b : Bool} {types : List TypeRecord} {t : TypeRecord}
    (h : Reaches isNested types b t) :
    (t ∈ keywordTypes types ∧ b = isNested) ∨
      ∃ parent ∈ keywordTypes types, Reaches true parent.nested b t := by
  induction h with
  | here listed => exact .inl ⟨listed, rfl⟩
  | nested reached listed ih =>
    obtain ⟨hparent, -⟩ | ⟨root, hroot, hreached⟩ := ih
    · exact .inr ⟨_, hparent, .here listed⟩
    · exact .inr ⟨root, hroot, .nested hreached listed⟩

/-- The rules for everything reached from a level, type by type. -/
theorem forall_reaches_iff {isNested : Bool} {types : List TypeRecord} :
    (∀ b t, Reaches isNested types b t → t.WellFormed b) ↔
      ∀ t ∈ keywordTypes types, t.WellFormed isNested ∧
        ∀ b' t', Reaches true t.nested b' t' → t'.WellFormed b' := by
  constructor
  · intro h t ht
    exact ⟨h isNested t (.here ht), fun b' t' ht' => h b' t' (.of_nested ht ht')⟩
  · intro h b t ht
    obtain ⟨hlisted, rfl⟩ | ⟨parent, hparent, hreached⟩ := ht.cases_level
    · exact (h t hlisted).1
    · exact (h parent hparent).2 b t hreached

end KeywordEngine
