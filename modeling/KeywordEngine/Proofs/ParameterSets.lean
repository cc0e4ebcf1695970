import KeywordEngine.Keyword.Spec

/-!
# Parameter sets

Which parameters belong to a set that a keyword declares, and to one that it does not declare.

* `mem_setNames`: a set that a parameter names is declared, unless it is the name for all sets.
* `position?_of_not_mem_setNames`: in an undeclared set parameters stand as they do in all sets.
-/

namespace KeywordEngine

namespace KeywordSpec

variable {k : KeywordSpec} {p : ParameterSpec} {set : String}

/-- A set that a parameter names is declared, unless it is the name for all sets. -/
theorem mem_setNames (hp : p ∈ k.parameters) (h : (p.sets.get? set).isSome = true)
    (hset : set ≠ allSets) : set ∈ k.setNames := by
  obtain ⟨membership, hget⟩ := Option.isSome_iff_exists.1 h
  have hkey : set ∈ p.sets.keys :=
    List.mem_map.2 ⟨(set, membership), SortedMap.mem_toList_iff.2 hget, rfl⟩
  simp only [setNames, List.mem_eraseDups, List.mem_filter, List.mem_flatMap]
  exact ⟨⟨p, hp, hkey⟩, by simpa using hset⟩

/-- In a set that no parameter declares, the parameters stand as they do in all sets. -/
theorem position?_of_not_mem_setNames (h : set ∉ k.setNames) (hp : p ∈ k.parameters) :
    p.position? set = p.position? allSets := by
  by_cases hall : set = allSets
  · rw [hall]
  · have hnone : p.sets.get? set = none := by
      rw [← Option.not_isSome_iff_eq_none]
      exact fun hsome => h (mem_setNames hp hsome hall)
    unfold ParameterSpec.position? ParameterSpec.inSet?
    rw [hnone]
    cases p.sets.get? allSets <;> rfl

/-- Where no set is declared, a parameter that belongs to some set belongs to all. -/
theorem inSet?_allSets_of_setNames_eq_nil (hk : k.setNames = []) (hp : p ∈ k.parameters)
    (h : (p.sets.get? set).isSome = true) : (p.inSet? allSets).isSome = true := by
  by_cases hall : set = allSets
  · obtain ⟨membership, hget⟩ := Option.isSome_iff_exists.1 h
    subst hall
    simp [ParameterSpec.inSet?, hget]
  · have hmem := mem_setNames hp h hall
    rw [hk] at hmem
    cases hmem

end KeywordSpec

end KeywordEngine
