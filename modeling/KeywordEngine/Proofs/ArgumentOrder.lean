import KeywordEngine.Proofs.AcceptedArguments
import Mathlib.Data.List.Perm.Basic

/-!
# Arguments in another order

Named elements may stand anywhere among the elements after a keyword's name; only the arguments
without a name have an order. Whether the elements are accepted, which parameter set is in use and
what each parameter gets does not depend on where the named ones stand, for any keyword, whether or
not its declaration is valid.

* `Reordered`: the same elements in another order.
* `resolveSet_eq_ok_iff_of_perm`, `slots_eq_of_perm`: the parameter set and the places for arguments
  without a name depend on the named parameters as a set.
* `SameBinding`: what two bindings have in common.
* `bindArguments_reordered`: reordered elements are bound alike.
-/

namespace KeywordEngine

/-- Of items with different keys, each key selects the same ones in any order. -/
theorem filter_key_eq_of_perm {α κ : Type} [DecidableEq κ] {key : α → κ} {l l' : List α}
    (h : l.Perm l') (hkeys : (l.map key).Nodup) (k : κ) :
    l.filter (key · = k) = l'.filter (key · = k) := by
  have hne {l : List α} (hkeys : (l.map key).Nodup) :
      (l.filter (key · = k)).Pairwise fun a b => key a ≠ key b :=
    (List.pairwise_map.1 hkeys).sublist List.filter_sublist
  refine (h.filter _).eq_of_pairwise (fun a b ha hb hab _ => ?_) (hne hkeys)
    (hne ((h.map key).nodup_iff.1 hkeys))
  have hka : key a = k := of_decide_eq_true (List.mem_filter.1 ha).2
  have hkb : key b = k := of_decide_eq_true (List.mem_filter.1 hb).2
  exact absurd (hka.trans hkb.symm) hab

namespace Arguments

variable {k : KeywordSpec} {elements elements' : List Element} {named named' : List Named}
  {set : String}

/-- The same elements in another order, in which the arguments without a name come one after the
other as before. -/
structure Reordered (elements elements' : List Element) : Prop where
  perm : elements.Perm elements'
  unnamed : unnamed elements = unnamed elements'

theorem Reordered.symm (h : Reordered elements elements') : Reordered elements' elements :=
  ⟨h.perm.symm, h.unnamed.symm⟩

/-! ## Steps of binding -/

theorem fits_eq_of_perm (h : named.Perm named') : fits named = fits named' := by
  funext set
  exact h.all_eq

/-- The set in use does not depend on the order in which parameters are named. -/
theorem resolveSet_eq_ok_iff_of_perm (h : named.Perm named') :
    resolveSet k named = .ok set ↔ resolveSet k named' = .ok set := by
  unfold resolveSet
  split
  · rfl
  · rename_i hk
    simp only [Success.map_eq_ok, narrowSets_eq_ok hk, fits_eq_of_perm h]

/-- Nor do the places that are left. -/
theorem slots_eq_of_perm (h : named.Perm named') (set : String) :
    slots k named set = slots k named' set := by
  unfold slots
  simp only [h.any_eq]

/-- Reading the named elements gives the same ones in another order. -/
theorem exists_readNamed_of_perm (h : elements.Perm elements')
    (hnamed : readNamed k [] elements = .ok named) :
    ∃ named', readNamed k [] elements' = .ok named' ∧ named.Perm named' ∧
      (named.map (·.parameter.name)).Nodup := by
  obtain ⟨hdeclared, hnodup, rfl⟩ := (readNamed_eq_ok (by simp)).1 hnamed
  have hperm := h.filterMap (asNamed? k)
  refine ⟨[] ++ elements'.filterMap (asNamed? k), (readNamed_eq_ok (by simp)).2 ⟨?_, ?_, rfl⟩,
    hperm, hnodup⟩
  · intro name argument span hmem
    exact hdeclared name argument span (h.mem_iff.2 hmem)
  · exact (hperm.map (·.parameter.name)).nodup_iff.1 hnodup

/-! ## Bindings -/

/-- Bindings that use the same parameter set and make the same plans, those for each name in the
same order. -/
structure SameBinding (bound bound' : BoundArguments) : Prop where
  set : bound.set = bound'.set
  arguments : bound.arguments.Perm bound'.arguments
  byName : ∀ name, bound.arguments.filter (·.target = name) =
    bound'.arguments.filter (·.target = name)

/-- There are plans for reordered elements that differ from those for the elements in the order of
the named ones. -/
theorem exists_plans_of_reordered (h : Reordered elements elements')
    (hnodup : ((namedBy k elements).map (·.1.name)).Nodup) {slots : List ParameterSpec}
    {plans : List Plan}
    (hplans : List.Forall₂ Plans ((assigned k elements slots).map .ofParameter) plans) :
    ∃ plans', List.Forall₂ Plans ((assigned k elements' slots).map .ofParameter) plans' ∧
      plans.Perm plans' ∧
      ∀ name, plans.filter (·.target = name) = plans'.filter (·.target = name) := by
  rw [assigned, List.map_append, Success.forall₂_append_left_iff] at hplans
  obtain ⟨forNames, forSlots, hnames, hslots, rfl⟩ := hplans
  have hperm : (namedBy k elements').Perm (namedBy k elements) :=
    h.perm.symm.filterMap (Element.named? k)
  obtain ⟨forNames', hnames', hplansPerm⟩ :=
    List.perm_comp_forall₂ (hperm.map Assignment.ofParameter) hnames
  have htargets : (forNames.map (·.target)).Nodup := by
    rwa [targets_of_plans hnames, List.map_map]
  refine ⟨forNames' ++ forSlots, ?_, hplansPerm.symm.append_right forSlots, fun name => ?_⟩
  · rw [assigned, List.map_append, ← h.unnamed]
    exact List.rel_append hnames' hslots
  · rw [List.filter_append, List.filter_append,
      filter_key_eq_of_perm hplansPerm.symm htargets name]

/-- Elements that are accepted are accepted in another order, and bound alike. -/
theorem exists_bindArguments_of_reordered (h : Reordered elements elements') {span : Span}
    {bound : BoundArguments} (hbound : bindArguments k elements span = .ok bound) (span' : Span) :
    ∃ bound', bindArguments k elements' span' = .ok bound' ∧ SameBinding bound bound' := by
  obtain ⟨named, hnamed, hset, hroom, hplans, hmissing⟩ := bindArguments_eq_ok.1 hbound
  obtain ⟨named', hnamed', hperm, hnodup⟩ := exists_readNamed_of_perm h.perm hnamed
  have hentries : named.map Named.entry = namedBy k elements := entries_of_readNamed hnamed
  have hnames : ((namedBy k elements).map (·.1.name)).Nodup := by
    rwa [← hentries, List.map_map]
  obtain ⟨plans', hplans', hplansPerm, hbyName⟩ := exists_plans_of_reordered h hnames hplans
  have hslots := slots_eq_of_perm (k := k) hperm bound.set
  refine ⟨⟨bound.set, plans'⟩, bindArguments_eq_ok.2 ⟨named', hnamed', ?_, ?_, ?_, ?_⟩,
    rfl, hplansPerm, hbyName⟩
  · exact (resolveSet_eq_ok_iff_of_perm hperm).1 hset
  · rwa [← h.unnamed, ← hslots]
  · rwa [← hslots]
  · rw [missing?_eq_none_iff] at hmissing ⊢
    intro p hp hmandatory
    obtain ⟨plan, hplan, htarget⟩ := hmissing p hp hmandatory
    exact ⟨plan, hplansPerm.mem_iff.1 hplan, htarget⟩

/-- Elements in another order are accepted if and only if they are accepted as they stand. They then
use the same parameter set, and each parameter gets the same value or expression under the same
constraint. -/
theorem bindArguments_reordered (k : KeywordSpec) (h : Reordered elements elements')
    (span span' : Span) :
    ((∃ bound, bindArguments k elements span = .ok bound) ↔
      ∃ bound', bindArguments k elements' span' = .ok bound') ∧
    ∀ bound bound', bindArguments k elements span = .ok bound →
      bindArguments k elements' span' = .ok bound' → SameBinding bound bound' := by
  refine ⟨⟨?_, ?_⟩, fun bound bound' hbound hbound' => ?_⟩
  · rintro ⟨bound, hbound⟩
    obtain ⟨bound', hbound', -⟩ := exists_bindArguments_of_reordered h hbound span'
    exact ⟨bound', hbound'⟩
  · rintro ⟨bound', hbound'⟩
    obtain ⟨bound, hbound, -⟩ := exists_bindArguments_of_reordered h.symm hbound' span
    exact ⟨bound, hbound⟩
  · obtain ⟨found, hfound, hsame⟩ := exists_bindArguments_of_reordered h hbound span'
    obtain rfl := Except.ok.inj (hfound.symm.trans hbound')
    exact hsame

/-- The number of what is copied may be given first. -/
theorem bindArguments_reordered_copy :
    let numberFirst : List Element := [.named "Id" (some (.literal (.int 7))) default,
      .positional (.literal (.string "b")) default, .named "Force" none default]
    Reordered (Copy.byId (.int 7)) numberFirst ∧
      ∃ bound', bindArguments Copy.spec numberFirst default = .ok bound' ∧ bound'.set = "ById" ∧
        (bound'.arguments.map (·.target)).Perm ["Force", "Id", "To"] := by
  intro numberFirst
  have hreordered : Reordered (Copy.byId (.int 7)) numberFirst := by
    have hperm : ((Copy.byId (.int 7)).take 2 ++ numberFirst.take 1).Perm
        (numberFirst.take 1 ++ (Copy.byId (.int 7)).take 2) := List.perm_append_comm
    exact ⟨hperm, rfl⟩
  obtain ⟨hiff, hsame⟩ := bindArguments_reordered Copy.spec hreordered default default
  obtain ⟨bound, hbound, hset, htargets⟩ := Copy.bindArguments_number
  obtain ⟨bound', hbound'⟩ := hiff.1 ⟨bound, hbound⟩
  obtain ⟨hset', harguments, -⟩ := hsame bound bound' hbound hbound'
  refine ⟨hreordered, bound', hbound', hset'.symm.trans hset, ?_⟩
  rw [← htargets]
  exact harguments.symm.map _

end Arguments

end KeywordEngine
