import KeywordEngine.Proofs.RegistrationIsolation

/-!
# Registrations taken back and exchanged

A registration stores its keywords under new names only, so removing the module erases exactly what
the registration stored. And whether a name is new does not depend on the order in which modules
come: two modules that are accepted one after the other are accepted the other way round as well.

* `Registry.Accepts.remove_add`: removing a module that was just registered gives the old registry.
* `Registry.Accepts.exchange`: of two modules that are accepted in turn, either may come first, and
  the registry is the same in the end.
* `Registry.SameAnswers`: registries that answer every question alike, wherever their keywords
  stand. Alike registries do (`Registry.Alike.sameAnswers`).
* `Registry.registersFreely`: what follows for registrations in any registry.
-/

namespace KeywordEngine

namespace Registry

variable {r : Registry} {forest forest₁ forest₂ : Nat} {m m₁ m₂ : ModuleMetadata}
  {keywords keywords₁ keywords₂ : List Keyword}

/-- Registries with the same modules and the same index are equal. -/
theorem ext_get? {r r' : Registry} (hmodules : ∀ id, r.modules.get? id = r'.modules.get? id)
    (hindex : ∀ key, r.index.get? key = r'.index.get? key) : r = r' := by
  obtain ⟨modules, index⟩ := r
  obtain ⟨modules', index'⟩ := r'
  obtain rfl : modules = modules' := SortedMap.ext_get? hmodules
  obtain rfl : index = index' := SortedMap.ext_get? hindex
  rfl

/-! ## Taking back -/

/-- What a successful registration tells. -/
theorem register_eq_ok {count : Nat} (h : (r.register forest m).result = .ok count) :
    ∃ keywords, r.Accepts forest m keywords ∧ keywords.length = count ∧
      (r.register forest m).registry = r.add m.module keywords := by
  by_cases haccepts : ∃ keywords, r.Accepts forest m keywords
  · obtain ⟨keywords, haccepts⟩ := haccepts
    obtain ⟨hregistry, hresult⟩ := register_of_accepts haccepts
    rw [hresult] at h
    exact ⟨keywords, haccepts, Except.ok.inj h, hregistry⟩
  · rw [not_exists] at haccepts
    obtain ⟨-, e, he⟩ := register_of_not_accepts haccepts
    rw [he] at h
    cases h

/-- Removing a module that was just registered gives the old registry. -/
theorem Accepts.remove_add (h : r.Accepts forest m keywords) :
    (r.add m.module keywords).remove m.module.id = r := by
  unfold remove
  rw [get?_modules_add, if_pos rfl]
  apply ext_get?
  · intro id
    rw [SortedMap.get?_erase, get?_modules_add]
    by_cases hid : m.module.id = id
    · rw [if_pos hid, ← hid, h.unknown]
    · rw [if_neg hid, if_neg hid]
  · intro key
    rw [get?_eraseNames]
    by_cases hkey : key ∈ keywords.map (Text.fold ·.name)
    · obtain ⟨k, hk, rfl⟩ := List.mem_map.1 hkey
      rw [if_pos hkey]
      exact (h.unclaimed k hk).symm
    · rw [if_neg hkey]
      ext k
      rw [get?_index_add h.nodup_names h.unclaimed]
      exact or_iff_right fun ⟨hk, hname⟩ => hkey (List.mem_map.2 ⟨k, hk, hname⟩)

/-! ## Exchanging -/

/-- The modules of a registry that accepts two in turn have different identities. -/
theorem Accepts.id_ne (h₂ : (r.add m₁.module keywords₁).Accepts forest₂ m₂ keywords₂) :
    m₁.module.id ≠ m₂.module.id := by
  intro hid
  have hunknown := h₂.unknown
  rw [get?_modules_add, if_pos hid] at hunknown
  cases hunknown

/-- What the larger registry does not find, the smaller one does not find either. -/
theorem Accepts.get?_eq_none (h : r.Accepts forest m keywords) {name : String}
    (hnone : (r.add m.module keywords).get? name = none) : r.get? name = none := by
  rw [Option.eq_none_iff_forall_ne_some] at hnone ⊢
  intro k hk
  exact hnone k ((get?_index_add h.nodup_names h.unclaimed).2 (.inr hk))

/-- Of two modules that are accepted in turn, either may come first. -/
theorem Accepts.exchange (h₁ : r.Accepts forest₁ m₁ keywords₁)
    (h₂ : (r.add m₁.module keywords₁).Accepts forest₂ m₂ keywords₂) :
    r.Accepts forest₂ m₂ keywords₂ ∧
      (r.add m₂.module keywords₂).Accepts forest₁ m₁ keywords₁ ∧
      (r.add m₂.module keywords₂).add m₁.module keywords₁ =
        (r.add m₁.module keywords₁).add m₂.module keywords₂ := by
  have hid := h₂.id_ne
  have hfirst : r.Accepts forest₂ m₂ keywords₂ := by
    refine ⟨?_, h₂.discovered, fun k hk => h₁.get?_eq_none (h₂.unclaimed k hk)⟩
    have hunknown := h₂.unknown
    rwa [get?_modules_add, if_neg hid] at hunknown
  have hsecond : (r.add m₂.module keywords₂).Accepts forest₁ m₁ keywords₁ := by
    refine ⟨?_, h₁.discovered, fun k hk => ?_⟩
    · rw [get?_modules_add, if_neg hid.symm, h₁.unknown]
    · -- a keyword of the second module under this name would find `k` in its way
      rw [Option.eq_none_iff_forall_ne_some]
      intro k' hk'
      rcases (get?_index_add hfirst.nodup_names hfirst.unclaimed).1 hk' with ⟨hlisted, hname⟩ | hold
      · have hclaimed : (r.add m₁.module keywords₁).get? k'.name = some k :=
          (get?_index_add h₁.nodup_names h₁.unclaimed).2 (.inl ⟨hk, hname.symm⟩)
        rw [h₂.unclaimed k' hlisted] at hclaimed
        cases hclaimed
      · exact absurd (hold.symm.trans (h₁.unclaimed k hk)) nofun
  refine ⟨hfirst, hsecond, ?_⟩
  apply ext_get?
  · intro id
    rw [get?_modules_add, get?_modules_add, get?_modules_add, get?_modules_add]
    by_cases hid₁ : m₁.module.id = id
    · have hid₂ : m₂.module.id ≠ id := fun heq => hid (hid₁.trans heq.symm)
      rw [if_pos hid₁, if_neg hid₂, if_pos hid₁]
    · rw [if_neg hid₁, if_neg hid₁]
  · intro key
    ext k
    rw [get?_index_add hsecond.nodup_names hsecond.unclaimed,
      get?_index_add hfirst.nodup_names hfirst.unclaimed,
      get?_index_add h₂.nodup_names h₂.unclaimed, get?_index_add h₁.nodup_names h₁.unclaimed]
    exact or_left_comm

/-! ## Answers -/

/-- Registries that answer every question alike, wherever their keywords stand. -/
structure SameAnswers (r r' : Registry) : Prop where
  get? : ∀ name, (r.get? name).map (·.spec) = (r'.get? name).map (·.spec)
  contains : ∀ name, r.contains name = r'.contains name
  keywords : r.keywords.map (·.spec) = r'.keywords.map (·.spec)
  keywordsOf? : ∀ id,
    (r.keywordsOf? id).map (·.map (·.spec)) = (r'.keywordsOf? id).map (·.map (·.spec))
  modules : r.modules.values.map (·.content) = r'.modules.values.map (·.content)
  containsModule : ∀ id, r.containsModule id = r'.containsModule id
  size : r.size = r'.size
  isEmpty : r.isEmpty = r'.isEmpty
  moduleCount : r.moduleCount = r'.moduleCount

theorem Alike.sameAnswers {r r' : Registry} (h : r.Alike r') : r.SameAnswers r' := by
  have hget (name : String) : (r.get? name).map (·.spec) = (r'.get? name).map (·.spec) :=
    h.index (Text.fold name)
  have hkeywords : r.keywords.map (·.spec) = r'.keywords.map (·.spec) :=
    SortedMap.map_values_eq_of_get? h.index
  have hmodules : r.modules.values.map (·.content) = r'.modules.values.map (·.content) :=
    SortedMap.map_values_eq_of_get? h.modules
  have hsize : r.size = r'.size := by
    simpa [Registry.keywords, SortedMap.values, Registry.size, SortedMap.size] using
      congrArg List.length hkeywords
  have hcount : r.moduleCount = r'.moduleCount := by
    simpa [SortedMap.values, Registry.moduleCount, SortedMap.size] using
      congrArg List.length hmodules
  refine ⟨hget, fun name => ?_, hkeywords, fun id => ?_, hmodules, h.contains_eq, hsize, ?_, hcount⟩
  · have hsome := congrArg Option.isSome (hget name)
    rwa [Option.isSome_map, Option.isSome_map] at hsome
  · have hcontent := congrArg (Option.map Prod.snd) (h.modules id)
    rw [Option.map_map, Option.map_map] at hcontent
    unfold Registry.keywordsOf?
    rw [Option.map_map, Option.map_map]
    exact hcontent
  · rw [Registry.isEmpty, Registry.isEmpty, Bool.eq_iff_iff, SortedMap.isEmpty, SortedMap.isEmpty,
      List.isEmpty_iff_length_eq_zero, List.isEmpty_iff_length_eq_zero]
    exact Eq.congr_left hsize

/-! ## Registrations -/

/-- Registrations in a registry may be taken back, repeated and exchanged. -/
structure RegistersFreely (r : Registry) : Prop where
  /-- A module that was registered is there, and removing it gives the old registry, with its very
  keywords. -/
  undone : ∀ forest m count, (r.register forest m).result = .ok count →
    let registered := (r.register forest m).registry
    registered.containsModule m.module.id = true ∧ registered.remove m.module.id = r
  /-- After that it may be registered again, as any forest. -/
  repeated : ∀ forest m count, (r.register forest m).result = .ok count → ∀ forest',
    let registered := (r.register forest m).registry
    let again := (registered.remove m.module.id).register forest' m
    again.result = .ok count ∧ again.registry.SameAnswers registered
  /-- Two modules that are registered in turn may be registered the other way round. -/
  exchanged : ∀ forest₁ m₁ count₁, (r.register forest₁ m₁).result = .ok count₁ →
    ∀ forest₂ m₂ count₂,
      ((r.register forest₁ m₁).registry.register forest₂ m₂).result = .ok count₂ →
    ∀ forest₁' forest₂',
      let both := (r.register forest₁ m₁).registry.register forest₂ m₂
      let first := r.register forest₂' m₂
      let second := first.registry.register forest₁' m₁
      first.result = .ok count₂ ∧ second.result = .ok count₁ ∧
        second.registry.SameAnswers both.registry

/-- A registration in any registry can be taken back without a trace, and two of them can be
exchanged. -/
theorem registersFreely (r : Registry) : r.RegistersFreely where
  undone forest m count h := by
    obtain ⟨keywords, haccepts, -, hregistry⟩ := register_eq_ok h
    simp only [hregistry]
    refine ⟨?_, haccepts.remove_add⟩
    rw [containsModule, SortedMap.contains, get?_modules_add, if_pos rfl, Option.isSome_some]
  repeated forest m count h forest' := by
    obtain ⟨keywords, haccepts, -, hregistry⟩ := register_eq_ok h
    have hundone : ((r.register forest m).registry).remove m.module.id = r := by
      rw [hregistry, haccepts.remove_add]
    obtain ⟨hresult, halike⟩ := (Alike.refl r).register forest' forest m
    simp only [hundone]
    exact ⟨hresult.trans h, halike.sameAnswers⟩
  exchanged forest₁ m₁ count₁ h₁ forest₂ m₂ count₂ h₂ forest₁' forest₂' := by
    obtain ⟨keywords₁, haccepts₁, hcount₁, hregistry₁⟩ := register_eq_ok h₁
    obtain ⟨keywords₂, haccepts₂, hcount₂, hregistry₂⟩ := register_eq_ok h₂
    rw [hregistry₁] at haccepts₂ hregistry₂
    obtain ⟨hfirst, hsecond, hexchange⟩ := haccepts₁.exchange haccepts₂
    obtain ⟨hregistry₂', hresult₂⟩ := register_of_accepts hfirst
    obtain ⟨hregistry₁', hresult₁⟩ := register_of_accepts hsecond
    -- under the old numbers of the forests both orders end in the same registry
    obtain ⟨hresult₂', halike₂⟩ := (Alike.refl r).register forest₂' forest₂ m₂
    rw [hregistry₂'] at halike₂
    obtain ⟨hresult₁', halike⟩ := halike₂.register forest₁' forest₁ m₁
    rw [hregistry₁', hexchange] at halike
    refine ⟨?_, ?_, ?_⟩
    · rw [hresult₂', hresult₂, hcount₂]
    · rw [hresult₁', hresult₁, hcount₁]
    · simp only [hregistry₁, hregistry₂]
      exact halike.sameAnswers

/-- A module of envelopes. -/
def envelopes : ModuleMetadata :=
  ⟨⟨⟨7⟩, "Envelopes", "1.0"⟩, [TypeRecord.mk "Envelope" (some Marker.baseType) .classType
    [Marker.ofKeyword .command .optionalMany] [] [] []]⟩

/-- Letters and envelopes are registered in either order, and taking back the letters leaves the
empty registry. -/
theorem registersFreely_envelopes :
    let letters := empty.register 0 Letter.metadata
    let both := letters.registry.register 1 envelopes
    let turned := (empty.register 2 envelopes).registry.register 3 Letter.metadata
    letters.registry.remove Letter.metadata.module.id = empty ∧ turned.result = .ok 1 ∧
      turned.registry.SameAnswers both.registry ∧ both.registry.size = 2 := by
  intro letters both turned
  have hletters : letters.result = .ok 1 := by decide +kernel
  have hboth : both.result = .ok 1 := by decide +kernel
  have hsize : both.registry.size = 2 := by decide +kernel
  obtain ⟨hundone, -, hexchanged⟩ := registersFreely empty
  obtain ⟨-, hturned, hsame⟩ := hexchanged 0 _ 1 hletters 1 _ 1 hboth 3 2
  exact ⟨(hundone 0 _ 1 hletters).2, hturned, hsame, hsize⟩

end Registry

end KeywordEngine
