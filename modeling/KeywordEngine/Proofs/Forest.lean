import KeywordEngine.Keyword
import KeywordEngine.Proofs.Discovery

/-!
# Keywords in their forests

A discovery gives a forest, and a keyword is what stands in one place of one forest. What is said
here of discovered keywords holds at every depth of a forest.

* `Keyword.Within`: the tree of a keyword. Places tell the keywords of a tree apart
  (`Keyword.Within.eq_of_id_eq`).
* `Discovered`: the keywords that a discovery gives, with everything nested in them.
* `Discoveries.Give`: the same where each forest number belongs to one module. There a place
  determines its keyword (`Discoveries.Give.eq_of_id_eq`).
* `validate_of_discovered`: every discovered keyword obeys the rules of a declaration.
-/

namespace KeywordEngine

open Discovery

/-! ## Places -/

theorem Forest.mem_keywords {f : Forest} {k : Keyword} :
    k ∈ f.keywords ↔ ∃ index, f.specs[index]? = some k.spec ∧ k.id = ⟨f.id, [index]⟩ := by
  unfold Forest.keywords
  rw [List.mem_mapIdx]
  constructor
  · rintro ⟨index, hindex, rfl⟩
    exact ⟨index, List.getElem?_eq_getElem hindex, rfl⟩
  · rintro ⟨index, hspec, hid⟩
    obtain ⟨hindex, hspec⟩ := List.getElem?_eq_some_iff.1 hspec
    exact ⟨index, hindex, by rw [hspec, ← hid]⟩

theorem Keyword.mem_children {parent k : Keyword} :
    k ∈ parent.children ↔
      ∃ index, parent.spec.children[index]? = some k.spec ∧ k.id = parent.id.child index := by
  unfold Keyword.children
  rw [List.mem_mapIdx]
  constructor
  · rintro ⟨index, hindex, rfl⟩
    exact ⟨index, List.getElem?_eq_getElem hindex, rfl⟩
  · rintro ⟨index, hspec, hid⟩
    obtain ⟨hindex, hspec⟩ := List.getElem?_eq_some_iff.1 hspec
    exact ⟨index, hindex, by rw [hspec, ← hid]⟩

theorem spec_mem_of_mem_keywords {f : Forest} {k : Keyword} (h : k ∈ f.keywords) :
    k.spec ∈ f.specs := by
  obtain ⟨index, hspec, -⟩ := Forest.mem_keywords.1 h
  exact List.mem_of_getElem? hspec

theorem spec_mem_of_mem_children {parent k : Keyword} (h : k ∈ parent.children) :
    k.spec ∈ parent.spec.children := by
  obtain ⟨index, hspec, -⟩ := Keyword.mem_children.1 h
  exact List.mem_of_getElem? hspec

@[simp] theorem Forest.map_spec_keywords (f : Forest) : f.keywords.map (·.spec) = f.specs :=
  List.ext_getElem (by simp [keywords]) (by simp [keywords])

@[simp] theorem Keyword.map_spec_children (k : Keyword) :
    k.children.map (·.spec) = k.spec.children :=
  List.ext_getElem (by simp [children]) (by simp [children])

theorem KeywordId.child_inj {p q : KeywordId} {i j : Nat} :
    p.child i = q.child j ↔ p = q ∧ i = j := by
  obtain ⟨forest, path⟩ := p
  obtain ⟨forest', path'⟩ := q
  constructor
  · intro h
    obtain ⟨rfl, hpath⟩ := KeywordId.mk.inj h
    obtain ⟨rfl, hindex⟩ := List.append_inj' hpath rfl
    exact ⟨rfl, by simpa using hindex⟩
  · rintro ⟨h, rfl⟩
    rw [h]

/-- Places tell the children of a keyword apart. -/
theorem Keyword.eq_of_mem_children {parent k k' : Keyword} (hk : k ∈ parent.children)
    (hk' : k' ∈ parent.children) (hid : k.id = k'.id) : k = k' := by
  obtain ⟨index, hspec, hplace⟩ := mem_children.1 hk
  obtain ⟨index', hspec', hplace'⟩ := mem_children.1 hk'
  obtain ⟨-, rfl⟩ := KeywordId.child_inj.1 (hplace.symm.trans (hid.trans hplace'))
  obtain ⟨id, spec⟩ := k
  obtain ⟨id', spec'⟩ := k'
  rw [Keyword.mk.injEq]
  exact ⟨hid, Option.some.inj (hspec.symm.trans hspec')⟩

/-- A place has one place around it. -/
theorem Keyword.id_eq_of_mem_children {parent parent' k k' : Keyword} (hk : k ∈ parent.children)
    (hk' : k' ∈ parent'.children) (hid : k.id = k'.id) : parent.id = parent'.id := by
  obtain ⟨_, -, hplace⟩ := mem_children.1 hk
  obtain ⟨_, -, hplace'⟩ := mem_children.1 hk'
  exact (KeywordId.child_inj.1 (hplace.symm.trans (hid.trans hplace'))).1

/-- Places tell the keywords at the top of a forest apart. -/
theorem Forest.eq_of_mem_keywords {f : Forest} {k k' : Keyword} (hk : k ∈ f.keywords)
    (hk' : k' ∈ f.keywords) (hid : k.id = k'.id) : k = k' := by
  obtain ⟨index, hspec, hplace⟩ := mem_keywords.1 hk
  obtain ⟨index', hspec', hplace'⟩ := mem_keywords.1 hk'
  obtain rfl : index = index' := by simpa [hplace, hplace'] using hid
  obtain ⟨id, spec⟩ := k
  obtain ⟨id', spec'⟩ := k'
  rw [Keyword.mk.injEq]
  exact ⟨hid, Option.some.inj (hspec.symm.trans hspec')⟩

/-! ## Trees -/

/-- The tree of a keyword: itself and what is nested in a keyword of its tree. -/
inductive Keyword.Within (root : Keyword) : Keyword → Prop
  | self : root.Within root
  | nested {parent k : Keyword} (held : root.Within parent) (listed : k ∈ parent.children) :
      root.Within k

namespace Keyword.Within

variable {root k k' : Keyword}

theorem of_child {child : Keyword} (listed : child ∈ root.children) (h : child.Within k) :
    root.Within k := by
  induction h with
  | self => exact .nested .self listed
  | nested _ listed ih => exact .nested ih listed

/-- A tree from the top: the keyword itself or the tree of one of its children. -/
theorem cases_child (h : root.Within k) : k = root ∨ ∃ child ∈ root.children, child.Within k := by
  induction h with
  | self => exact .inl rfl
  | @nested parent k held listed ih =>
    obtain rfl | ⟨child, hchild, hparent⟩ := ih
    · exact .inr ⟨k, listed, .self⟩
    · exact .inr ⟨child, hchild, .nested hparent listed⟩

/-- Below the place of its root, a tree has the place of each of its keywords. -/
theorem place (h : root.Within k) :
    ∃ below, k.id = ⟨root.id.forest, root.id.path ++ below⟩ := by
  induction h with
  | self => exact ⟨[], by simp⟩
  | nested _ listed ih =>
    obtain ⟨below, hparent⟩ := ih
    obtain ⟨index, -, hplace⟩ := mem_children.1 listed
    exact ⟨below ++ [index], by rw [hplace, hparent, KeywordId.child, List.append_assoc]⟩

theorem id_ne_of_mem_children {parent : Keyword} (h : root.Within parent)
    (listed : k ∈ parent.children) : k.id ≠ root.id := by
  obtain ⟨below, hparent⟩ := h.place
  obtain ⟨index, -, hplace⟩ := mem_children.1 listed
  intro hid
  rw [hplace, hparent, KeywordId.child] at hid
  have hlength := congrArg (·.path.length) hid
  simp at hlength

/-- Places tell the keywords of a tree apart. -/
theorem eq_of_id_eq (h : root.Within k) (h' : root.Within k') (hid : k.id = k'.id) : k = k' := by
  induction h generalizing k' with
  | self =>
    cases h' with
    | self => rfl
    | nested held listed => exact absurd hid.symm (held.id_ne_of_mem_children listed)
  | nested held listed ih =>
    cases h' with
    | self => exact absurd hid (held.id_ne_of_mem_children listed)
    | nested held' listed' =>
      obtain rfl := ih held' (id_eq_of_mem_children listed listed' hid)
      exact eq_of_mem_children listed listed' hid

end Keyword.Within

/-! ## Discovered keywords -/

/-- The keywords of a forest: those at its top and those nested in one of them. -/
inductive Forest.Holds (f : Forest) : Keyword → Prop
  | top {k : Keyword} (listed : k ∈ f.keywords) : f.Holds k
  | nested {parent k : Keyword} (held : f.Holds parent) (listed : k ∈ parent.children) : f.Holds k

theorem Forest.holds_iff {f : Forest} {k : Keyword} :
    f.Holds k ↔ ∃ root ∈ f.keywords, root.Within k := by
  constructor
  · intro h
    induction h with
    | top listed => exact ⟨_, listed, .self⟩
    | nested _ listed ih =>
      obtain ⟨root, hroot, hparent⟩ := ih
      exact ⟨root, hroot, .nested hparent listed⟩
  · rintro ⟨root, hroot, h⟩
    induction h with
    | self => exact .top hroot
    | nested _ listed ih => exact .nested ih listed

/-- A keyword of a forest that a discovery gave. -/
def Discovered (k : Keyword) : Prop :=
  ∃ m keywords id, discover m = .ok keywords ∧ (Forest.mk id keywords.values).Holds k

section Discovery

variable {m : ModuleMetadata} {keywords : SortedMap String KeywordSpec} {id : Nat} {k : Keyword}

/-- A keyword of a discovered forest stands for a type that discovery reaches. -/
theorem declared_of_holds (hdiscover : discover m = .ok keywords)
    (h : (Forest.mk id keywords.values).Holds k) :
    ∃ levels isNested t, Reaches false m.types isNested t ∧
      t.declared m.module levels isNested = k.spec := by
  obtain ⟨wf, rfl⟩ := discover_eq_ok.1 hdiscover
  induction h with
  | top listed =>
    obtain ⟨⟨name, spec⟩, hentry, heq⟩ := List.mem_map.1 (spec_mem_of_mem_keywords listed)
    obtain ⟨t, ht, -, hdeclared⟩ :=
      (get?_declaredModule wf.names).1 (SortedMap.mem_toList_iff.1 hentry)
    exact ⟨_, _, t, .here ht, hdeclared.trans heq⟩
  | nested held listed ih =>
    obtain ⟨levels, isNested, t, hreached, hdeclared⟩ := ih
    have hchild := spec_mem_of_mem_children listed
    rw [← hdeclared, TypeRecord.declared_eq] at hchild
    obtain ⟨t', ht', hdeclared'⟩ := List.mem_map.1 hchild
    exact ⟨_, _, t', .nested hreached ht', hdeclared'⟩

/-- Nested are the keywords below the top of a discovered forest. -/
theorem nested_eq_false_iff (hdiscover : discover m = .ok keywords)
    (h : (Forest.mk id keywords.values).Holds k) :
    k.spec.nested = false ↔ k ∈ (Forest.mk id keywords.values).keywords := by
  constructor
  · intro hroot
    cases h with
    | top listed => exact listed
    | nested held listed =>
      obtain ⟨levels, isNested, t, -, hdeclared⟩ := declared_of_holds hdiscover held
      have hchild := spec_mem_of_mem_children listed
      rw [← hdeclared, TypeRecord.declared_eq] at hchild
      obtain ⟨t', -, hdeclared'⟩ := List.mem_map.1 hchild
      rw [← hdeclared', TypeRecord.declared_eq] at hroot
      cases hroot
  · intro listed
    obtain ⟨wf, rfl⟩ := discover_eq_ok.1 hdiscover
    obtain ⟨⟨name, spec⟩, hentry, heq⟩ := List.mem_map.1 (spec_mem_of_mem_keywords listed)
    obtain ⟨t, -, -, hdeclared⟩ :=
      (get?_declaredModule wf.names).1 (SortedMap.mem_toList_iff.1 hentry)
    rw [← heq, ← hdeclared, TypeRecord.declared_eq]
    rfl

end Discovery

/-- Every discovered keyword obeys the rules of a declaration. -/
theorem validate_of_discovered {k : Keyword} (h : Discovered k) : k.spec.validate = .ok () := by
  obtain ⟨m, keywords, id, hdiscover, hheld⟩ := h
  obtain ⟨levels, isNested, t, hreached, hdeclared⟩ := declared_of_holds hdiscover hheld
  have wf := (discover_eq_ok.1 hdiscover).1.types isNested t hreached
  rw [← hdeclared, validate_declared]
  exact ⟨wf.name, wf.root, wf.command, wf.siblings, wf.positions⟩

/-- The names of the keywords nested in a discovered one are different. -/
theorem nodup_childNames_of_discovered {k : Keyword} (h : Discovered k) :
    (k.children.map (·.name)).Nodup := by
  have hfolded := (KeywordSpec.validate_eq_ok.1 (validate_of_discovered h)).2.2.2.1
  have hnames : (k.spec.children.map (·.name)).Nodup := by
    refine List.Nodup.of_map Text.fold ?_
    rw [List.map_map]
    exact hfolded
  rw [← k.map_spec_children, List.map_map] at hnames
  exact hnames

/-- A parameter of a discovered keyword belongs to some set, for it has a marker. -/
theorem sets_of_discovered {k : Keyword} (h : Discovered k) {p : ParameterSpec}
    (hp : p ∈ k.spec.parameters) : ∃ set, (p.sets.get? set).isSome = true := by
  obtain ⟨m, keywords, id, hdiscover, hheld⟩ := h
  obtain ⟨levels, isNested, t, -, hdeclared⟩ := declared_of_holds hdiscover hheld
  rw [← hdeclared, TypeRecord.declared_eq] at hp
  obtain ⟨m, -, hm⟩ := List.mem_filterMap.1 hp
  unfold MemberRecord.parameter? at hm
  cases hmarkers : m.parameterMarkers with
  | nil => simp [hmarkers] at hm
  | cons a rest =>
    obtain rfl : _ = p := by simpa [hmarkers] using hm
    refine ⟨a.membership.1, SortedMap.isSome_get?_ofList.2 ⟨a.membership.2, ?_⟩⟩
    simp [hmarkers]

/-! ## Numbered discoveries -/

/-- Discoveries by the numbers of their forests: each forest comes from one module. -/
abbrev Discoveries := Nat → ModuleMetadata

namespace Discoveries

variable {ms : Discoveries} {k k' : Keyword}

/-- A keyword of the forest that the discovery with its number gave. -/
def Give (ms : Discoveries) (k : Keyword) : Prop :=
  ∃ keywords, discover (ms k.id.forest) = .ok keywords ∧
    (Forest.mk k.id.forest keywords.values).Holds k

/-- A keyword at the top of the forest that the discovery with its number gave. -/
def GiveTop (ms : Discoveries) (root : Keyword) : Prop :=
  ∃ keywords, discover (ms root.id.forest) = .ok keywords ∧
    root ∈ (Forest.mk root.id.forest keywords.values).keywords

theorem Give.discovered (h : ms.Give k) : Discovered k := by
  obtain ⟨keywords, hdiscover, hheld⟩ := h
  exact ⟨_, keywords, _, hdiscover, hheld⟩

theorem Give.top (h : ms.Give k) (hroot : k.spec.nested = false) : ms.GiveTop k := by
  obtain ⟨keywords, hdiscover, hheld⟩ := h
  exact ⟨keywords, hdiscover, (nested_eq_false_iff hdiscover hheld).1 hroot⟩

/-- Trees of different keywords at the top have no place in common. -/
theorem GiveTop.eq_of_within {root root' : Keyword} (h : ms.GiveTop root) (h' : ms.GiveTop root')
    (hk : root.Within k) (hk' : root'.Within k') (hid : k.id = k'.id) : root = root' := by
  obtain ⟨keywords, hdiscover, hroot⟩ := h
  obtain ⟨keywords', hdiscover', hroot'⟩ := h'
  obtain ⟨index, -, hplace⟩ := Forest.mem_keywords.1 hroot
  obtain ⟨index', -, hplace'⟩ := Forest.mem_keywords.1 hroot'
  obtain ⟨below, hbelow⟩ := hk.place
  obtain ⟨below', hbelow'⟩ := hk'.place
  rw [hplace] at hbelow
  rw [hplace'] at hbelow'
  obtain ⟨hforest, rfl, -⟩ : root.id.forest = root'.id.forest ∧ index = index' ∧ below = below' := by
    simpa [hbelow, hbelow'] using hid
  rw [← hforest] at hdiscover' hroot' hplace'
  obtain rfl := Except.ok.inj (hdiscover.symm.trans hdiscover')
  exact Forest.eq_of_mem_keywords hroot hroot' (hplace.trans hplace'.symm)

theorem Give.of_mem_children (h : ms.Give k) {child : Keyword} (listed : child ∈ k.children) :
    ms.Give child := by
  obtain ⟨keywords, hdiscover, hheld⟩ := h
  obtain ⟨index, -, hplace⟩ := Keyword.mem_children.1 listed
  have hforest : child.id.forest = k.id.forest := by rw [hplace, KeywordId.child]
  refine ⟨keywords, ?_⟩
  rw [hforest]
  exact ⟨hdiscover, .nested hheld listed⟩

/-- Every given keyword stands in the tree of one at the top. -/
theorem Give.exists_top (h : ms.Give k) : ∃ root, ms.GiveTop root ∧ root.Within k := by
  obtain ⟨keywords, hdiscover, hheld⟩ := h
  obtain ⟨root, hroot, hk⟩ := Forest.holds_iff.1 hheld
  obtain ⟨index, -, hplace⟩ := Forest.mem_keywords.1 hroot
  have hforest : root.id.forest = k.id.forest := by rw [hplace]
  refine ⟨root, ⟨keywords, ?_⟩, hk⟩
  rw [hforest]
  exact ⟨hdiscover, hroot⟩

/-- A place determines its keyword. -/
theorem Give.eq_of_id_eq (h : ms.Give k) (h' : ms.Give k') (hid : k.id = k'.id) : k = k' := by
  obtain ⟨root, hroot, hk⟩ := h.exists_top
  obtain ⟨root', hroot', hk'⟩ := h'.exists_top
  obtain rfl := hroot.eq_of_within hroot' hk hk' hid
  exact hk.eq_of_id_eq hk' hid

end Discoveries

/-! ## A sample

A letter has exactly one address.
-/

namespace Letter

/-- The types of the sample keywords. -/
def metadata : ModuleMetadata :=
  let keywordType (name : String) (body : BodyMode) (use : UseMode) (nested : List TypeRecord) :=
    TypeRecord.mk name (some Marker.baseType) .classType [Marker.ofKeyword body use] [] [] nested
  ⟨⟨⟨3⟩, "Letters", "1.0"⟩,
    [keywordType "Letter" .scriptBlock .optionalMany [keywordType "Address" .command .required []]]⟩

/-- The address of a letter. -/
def address : Keyword :=
  ⟨⟨0, [0, 0]⟩, ⟨"Address", .command, .required, none, [], [], [], true, metadata.module⟩⟩

/-- A letter. -/
def letter : Keyword :=
  ⟨⟨0, [0]⟩,
    ⟨"Letter", .scriptBlock, .optionalMany, none, [], [], [address.spec], false, metadata.module⟩⟩

theorem children_letter : letter.children = [address] := by
  simp [Keyword.children, letter, address, KeywordId.child]

theorem discover_metadata : ∃ keywords, discover metadata = .ok keywords ∧
    keywords.values = [letter.spec] := by
  have hok : (discover metadata).isOk = true := by decide +kernel
  exact ⟨_, discover_of_isOk hok, by with_unfolding_all rfl⟩

theorem give_letter : Discoveries.Give (fun _ => metadata) letter := by
  obtain ⟨keywords, hdiscover, hvalues⟩ := discover_metadata
  refine ⟨keywords, hdiscover, .top ?_⟩
  rw [hvalues]
  simp [Forest.keywords, letter]

theorem give_address : Discoveries.Give (fun _ => metadata) address :=
  give_letter.of_mem_children (by simp [children_letter])

end Letter

end KeywordEngine
