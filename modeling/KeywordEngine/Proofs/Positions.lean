import KeywordEngine.Proofs.AcceptedArguments

/-!
# Positions

Validation looks at the declared parameter sets and at the one that stands for all of them. This is
enough for every set: where no parameter speaks of a set, all of them stand in it as they do in all
sets. So the parameters that take arguments without a name are strictly ordered by their positions,
and no sort can arrange them in two ways.

* `KeywordSpec.DistinctPositions`: no two parameters have the same position in a set.
* `Arguments.placed`, `Arguments.slots_perm_placed`: the parameters that `slots` sorts.
* `Arguments.StrictlyPlaced`: they are in strict order, and in no other one by position.
* `Arguments.strictlyPlaced_of_validate`: what validation checks, and what follows for binding.
-/

namespace KeywordEngine

namespace KeywordSpec

variable {k : KeywordSpec} {set : String}

/-- No two parameters have the same position in a set. -/
def DistinctPositions (k : KeywordSpec) (set : String) : Prop :=
  k.parameters.Pairwise fun p q => ∀ i, p.position? set = some i → q.position? set ≠ some i

theorem distinctPositions_iff :
    k.DistinctPositions set ↔ (k.parameters.filterMap (·.position? set)).Nodup := by
  unfold DistinctPositions List.Nodup
  rw [List.pairwise_filterMap]
  refine Iff.of_eq (congrArg (k.parameters.Pairwise ·) ?_)
  funext p q
  refine propext ⟨fun h i hi j hj => ?_, fun h i hi hj => h i hi i hj rfl⟩
  rintro rfl
  exact h i hi hj

end KeywordSpec

namespace Arguments

variable {k : KeywordSpec} {named : List Named} {set : String}

/-- Two parameters have positions in a set, the first one not the greater. -/
def NotAfter (set : String) (p q : ParameterSpec) : Prop :=
  ∃ i j, p.position? set = some i ∧ q.position? set = some j ∧ i ≤ j

/-- The parameters that are not named and have a position in a set, as they are declared. -/
def placed (k : KeywordSpec) (named : List Named) (set : String) : List ParameterSpec :=
  (k.parameters.filter fun p => !named.any (·.parameter.name == p.name)).filter fun p =>
    (p.position? set).isSome

/-- The slots for arguments without a name are these parameters. -/
theorem slots_perm_placed : (slots k named set).Perm (placed k named set) := by
  have hplaced (l : List ParameterSpec) :
      (l.filterMap fun p => (p.position? set).map (·, p)).map (·.2) =
        l.filter fun p => (p.position? set).isSome := by
    induction l with
    | nil => rfl
    | cons p rest ih => cases hp : p.position? set <;> simp [hp, ih]
  unfold slots placed
  rw [← hplaced]
  exact (List.mergeSort_perm _ _).map _

/-- The slots for arguments without a name are in strict order, and every list of the same
parameters that is in the order of their positions is this one. -/
structure StrictlyPlaced (k : KeywordSpec) (named : List Named) (set : String) : Prop where
  increasing : (slots k named set).Pairwise (Precedes set)
  unique : ∀ l, l.Perm (placed k named set) → l.Pairwise (NotAfter set) → l = slots k named set

/-- In a set without shared positions, parameters in the order of their positions are in strict
order. -/
theorem precedes_of_notAfter (h : k.DistinctPositions set) {l : List ParameterSpec}
    (hperm : l.Perm (placed k named set)) (hsorted : l.Pairwise (NotAfter set)) :
    l.Pairwise (Precedes set) := by
  have hdistinct : l.Pairwise fun p q =>
      ∀ i, p.position? set = some i → q.position? set ≠ some i := by
    refine (hperm.pairwise_iff fun hpq i hq hp => hpq i hp hq).2 (List.Pairwise.sublist ?_ h)
    exact List.filter_sublist.trans List.filter_sublist
  refine (hsorted.and hdistinct).imp fun ⟨hpq, hne⟩ => ?_
  obtain ⟨i, j, hi, hj, hij⟩ := hpq
  refine ⟨i, j, hi, hj, UInt32.lt_of_le_of_ne hij ?_⟩
  rintro rfl
  exact hne i hi hj

theorem strictlyPlaced (h : k.DistinctPositions set) (named : List Named) :
    StrictlyPlaced k named set := by
  have hincreasing : (slots k named set).Pairwise (Precedes set) := by
    refine pairwise_placed ((KeywordSpec.distinctPositions_iff.1 h).sublist ?_)
    exact List.filter_sublist.filterMap _
  refine ⟨hincreasing, fun l hperm hsorted => ?_⟩
  exact (precedes_of_notAfter h hperm hsorted).eq_of_mem_iff hincreasing fun p =>
    (hperm.trans slots_perm_placed.symm).mem_iff

/-- Validation checks the positions in every set, whether any parameter speaks of it or not. In a
valid keyword the parameters that take arguments without a name therefore come in strictly
increasing positions, whatever set is in use and whichever parameters are named, and nothing but
these positions decides about their order. -/
theorem strictlyPlaced_of_validate (k : KeywordSpec) :
    (k.validatePositions = .ok () ↔ ∀ set, k.DistinctPositions set) ∧
    (k.validate = .ok () → ∀ named set, StrictlyPlaced k named set) := by
  have hchecked : k.validatePositions = .ok () ↔ ∀ set, k.DistinctPositions set := by
    simp only [KeywordSpec.validatePositions_eq_ok, KeywordSpec.distinctPositions_iff]
  refine ⟨hchecked, fun hvalid named set => strictlyPlaced ?_ named⟩
  exact KeywordSpec.distinctPositions_iff.2 ((KeywordSpec.validate_eq_ok.1 hvalid).2.2.2.2 set)

/-- Of what is copied and where to, the number comes first and the target last. In a set of which
nothing is said, the target stands alone. -/
theorem strictlyPlaced_of_validate_copy :
    StrictlyPlaced Copy.spec [] "ById" ∧ slots Copy.spec [] "ById" = [Copy.number, Copy.target] ∧
    StrictlyPlaced Copy.spec [] "Elsewhere" ∧ slots Copy.spec [] "Elsewhere" = [Copy.target] := by
  have hplaced := (strictlyPlaced_of_validate Copy.spec).2 Copy.validate_spec
  have hnumber : Copy.number.position? "ById" = some 0 := by decide +kernel
  have htarget : Copy.target.position? "ById" = some 5 := by decide +kernel
  refine ⟨hplaced [] "ById", ((hplaced [] "ById").unique _ (.of_eq rfl) ?_).symm,
    hplaced [] "Elsewhere", ((hplaced [] "Elsewhere").unique _ (.of_eq rfl) ?_).symm⟩
  · exact List.pairwise_pair.2 ⟨0, 5, hnumber, htarget, by decide⟩
  · exact List.pairwise_singleton _ _

end Arguments

end KeywordEngine
