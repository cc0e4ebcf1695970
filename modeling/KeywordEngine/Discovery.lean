import KeywordEngine.Keyword.Validation
import KeywordEngine.Log.Event
import KeywordEngine.Metadata.Marker

/-!
# Discovery

The keywords that the types of a module declare. A keyword type is a class that derives from the
keyword base type and carries the keyword marker. The keywords of a module are its keyword types at
module root; the keywords nested in a keyword are the keyword types nested directly in its type.
Keyword types inside other types are never reached.

* `discover` gives the keywords of a module by name, or the first broken rule.
* `EnumTable`, `lookupEnum`: an enum is visible in the keyword type that encloses it and in
  everything below, and an inner enum hides an outer one of the same name.
-/

namespace KeywordEngine.Discovery

/-- The result of reading declarations. -/
abbrev Result (α : Type) := Except DeclarationError α

/-! ## Enums -/

/-- The enums of one level with their members, by exact name. -/
abbrev EnumTable := SortedMap String SortedSet

/-- The members of an enum: its fields but the backing field. -/
def enumMembers (t : TypeRecord) : SortedSet :=
  .ofTexts (t.enumFields.filter (· != Marker.enumBackingField))

/-- The enums among the types of one level; of two with one name the later counts. -/
def enumsOf (types : List TypeRecord) : EnumTable :=
  .ofList ((types.filter (·.kind == .enumType)).map fun t => (t.name, enumMembers t))

/-- The members of the enum that a type name, without its `[]` groups, denotes in the innermost of
the levels that declares it; none if no level does. -/
def lookupEnum (levels : List EnumTable) (typeName : String) : SortedSet :=
  (levels.findSome? (·.get? (TypeName.elementName typeName))).getD ∅

/-! ## Arguments of markers -/

private def invalid (owner argument : String) (value : AttributeValue) : DeclarationError :=
  .invalidAttributeArgument owner argument value.text

/-- A text argument, if given. -/
def readString (owner : String) (marker : AttributeRecord) (argument : String) :
    Result (Option String) :=
  match marker.argument? argument with
  | none => .ok none
  | some (.string s) => .ok (some s)
  | some value => .error (invalid owner argument value)

/-- A truth-value argument; false if not given. -/
def readFlag (owner : String) (marker : AttributeRecord) (argument : String) : Result Bool :=
  match marker.argument? argument with
  | none => .ok false
  | some (.bool b) => .ok b
  | some value => .error (invalid owner argument value)

/-- The position argument: absent or `notPositional` for none, and otherwise a 32-bit number. -/
def readPosition (owner : String) (marker : AttributeRecord) : Result (Option UInt32) :=
  match marker.argument? Marker.positionArgument with
  | none => .ok none
  | some (.int n) =>
    if n = Marker.notPositional then .ok none
    else if 0 ≤ n.toInt ∧ n.toInt < UInt32.size then .ok (some (UInt32.ofNat n.toInt.toNat))
    else .error (invalid owner Marker.positionArgument (.int n))
  | some value => .error (invalid owner Marker.positionArgument value)

/-- A text argument read as a mode; `absent` if not given. -/
def readMode {μ : Type} (ofText? : String → Option μ) (absent : μ) (owner : String)
    (marker : AttributeRecord) (argument : String) : Result μ := do
  match ← readString owner marker argument with
  | none => return absent
  | some s =>
    match ofText? s with
    | some mode => return mode
    | none => throw (invalid owner argument (.string s))

/-! ## Members -/

/-- What a settable member declares. -/
inductive MemberDeclaration where
  | parameter (p : ParameterSpec)
  | property (p : PropertySpec)
  | nothing

/-- The parameter set a marker speaks of and what it says. -/
def readMembership (owner : String) (marker : AttributeRecord) :
    Result (String × SetMembership) := do
  let mandatory ← readFlag owner marker Marker.mandatoryArgument
  let position ← readPosition owner marker
  let set ← readString owner marker Marker.setArgument
  return ((set.filter (· != "")).getD allSets, ⟨position, mandatory⟩)

/-- What a member of the keyword type `keyword` declares. A member with a parameter marker is a
parameter; of two markers for one set the later counts. Any other member with a property marker is
a property, by the first such marker. -/
def readMember (levels : List EnumTable) (keyword : String) (m : MemberRecord) :
    Result MemberDeclaration := do
  let owner := keyword ++ "." ++ m.name
  let typeName := TypeName.decode m.signature
  let members := lookupEnum levels typeName
  match m.attributes.filter (·.is Marker.parameter) with
  | [] =>
    match m.attributes.find? (·.is Marker.property) with
    | none => return .nothing
    | some marker =>
      let mandatory ← readFlag owner marker Marker.mandatoryArgument
      return .property ⟨m.name, typeName, mandatory, members⟩
  | markers =>
    let memberships ← markers.mapM (readMembership owner)
    return .parameter ⟨m.name, typeName, members, .ofList memberships⟩

/-- The parameters among declarations. -/
def parametersOf (ds : List MemberDeclaration) : List ParameterSpec :=
  ds.filterMap fun | .parameter p => some p | _ => none

/-- The properties among declarations. -/
def propertiesOf (ds : List MemberDeclaration) : List PropertySpec :=
  ds.filterMap fun | .property p => some p | _ => none

/-! ## Types -/

/-- The keyword marker of a keyword type; none for any other type. -/
def keywordMarker? (t : TypeRecord) : Option AttributeRecord :=
  if t.kind = .classType ∧ t.base.any (TypeName.simpleName · == Marker.baseType) then
    t.attribute? Marker.keyword
  else none

/-- Whether the type is a keyword type. -/
def isKeywordType (t : TypeRecord) : Bool := (keywordMarker? t).isSome

mutual
/-- The keyword that a type with a keyword marker declares. `levels` holds the enums of the levels
around it, the innermost first. -/
def readKeyword (module : ModuleRef) (levels : List EnumTable) (isNested : Bool)
    (marker : AttributeRecord) : TypeRecord → Result KeywordSpec
  | ⟨name, _, _, _, members, _, types⟩ => do
    let body ← readMode BodyMode.ofText? Marker.defaultBody name marker Marker.bodyArgument
    let use ← readMode UseMode.ofText? Marker.defaultUse name marker Marker.useArgument
    let defaultSet ← readString name marker Marker.defaultSetArgument
    if !isNested && use ≠ .optionalMany then throw (.invalidUseMode name use)
    let levels := enumsOf types :: levels
    let declarations ← (members.filter (·.settable)).mapM (readMember levels name)
    if body = .command then
      if let some child := types.find? isKeywordType then
        throw (.nestedUnderCommand name child.name)
    let children ← readKeywords module levels true name [] types
    let keyword : KeywordSpec :=
      { name, body, use
        defaultSet := defaultSet.filter (· != "")
        parameters := parametersOf declarations
        properties := propertiesOf declarations
        children
        nested := isNested
        module }
    keyword.validate
    return keyword
termination_by structural t => t

/-- The keywords that the types of one level declare. `scope` is the name of what encloses them and
`seen` the folded names of the keywords before them. -/
def readKeywords (module : ModuleRef) (levels : List EnumTable) (isNested : Bool)
    (scope : String) (seen : List String) : List TypeRecord → Result (List KeywordSpec)
  | [] => return []
  | t :: rest =>
    match keywordMarker? t with
    | none => readKeywords module levels isNested scope seen rest
    | some marker => do
      let keyword ← readKeyword module levels isNested marker t
      if Text.fold keyword.name ∈ seen then throw (.duplicateKeyword keyword.name scope)
      let others ←
        readKeywords module levels isNested scope (Text.fold keyword.name :: seen) rest
      return keyword :: others
termination_by structural l => l
end

/-- The keywords of a module by name. A broken rule anywhere in the module rejects all of them. -/
def discover (m : ModuleMetadata) : Result (SortedMap String KeywordSpec) := do
  let keywords ← readKeywords m.module [enumsOf m.types] false m.module.name [] m.types
  return .ofList (keywords.map fun k => (k.name, k))

/-- The event of a discovery. -/
def event (m : ModuleRef) (outcome : Result (SortedMap String KeywordSpec)) : Log.Event :=
  match outcome with
  | .ok keywords => ⟨.info, "module_discovery", "discovery", "ok",
      [("target", m.text), ("keyword_count", Text.ofNat keywords.size)]⟩
  | .error e => ⟨.error, "module_discovery", "discovery", "error",
      [("target", m.text), ("error", e.message)]⟩

end KeywordEngine.Discovery
