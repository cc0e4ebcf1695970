import KeywordEngine.Keyword.Validation
import KeywordEngine.Proofs.Coercion
import KeywordEngine.Proofs.Lookup

/-!
# Declared members of an enum

What an enum makes of a text is the first of its members that the text names, apart from case and
from blanks around it. A member is therefore kept as it is if no smaller one differs from it in case
only, and replaced by the smallest such member otherwise.

* `Text.trim_of_isIdentifier`: nothing of an identifier is trimmed.
* `FirstNamed`, `memberOf?_eq_some_iff`: the member that a text becomes.
* `Itemwise`, `coerce_arrays_enum_iff`: under layers of arrays this is done text by text.
* `Leads`, `AllTexts`: the members and the arrays of members that are kept.
* `keepsMembers`: what becomes of texts, which are kept, and enums that keep all their members.
* `not_keepsMembers_go`: an enum that does not.
-/

namespace KeywordEngine

/-! ## Identifiers -/

namespace Text

/-- Letters, digits and the underscore are no blanks. -/
theorem isBlank_of_word {c : Char} (h : (c.isAlphanum || c == '_') = true) : isBlank c = false := by
  have small : ∀ n < 128, ((Char.ofNat n).isAlphanum || Char.ofNat n == '_') = true →
      isBlank (Char.ofNat n) = false := by
    decide
  have hascii {bound : Char} (hbound : bound.toNat < 128) (hle : c.val ≤ bound.val) :
      c.toNat < 128 :=
    Nat.lt_of_le_of_lt (UInt32.le_iff_toNat_le.1 hle) hbound
  have hc : c.toNat < 128 := by
    obtain halphanum | hunderscore := Bool.or_eq_true_iff.1 h
    · obtain halpha | hdigit := Bool.or_eq_true_iff.1 halphanum
      · obtain hupper | hlower := Bool.or_eq_true_iff.1 halpha
        · exact @hascii 'Z' (by decide) (of_decide_eq_true hupper).2
        · exact @hascii 'z' (by decide) (of_decide_eq_true (Bool.and_eq_true_iff.1 hlower).2)
      · exact @hascii '9' (by decide) (of_decide_eq_true (Bool.and_eq_true_iff.1 hdigit).2)
    · obtain rfl := beq_iff_eq.1 hunderscore
      decide
  have := small c.toNat hc
  rw [Char.ofNat_toNat] at this
  exact this h

/-- Nothing of an identifier is trimmed. -/
theorem trim_of_isIdentifier {s : String} (h : isIdentifier s = true) : trim s = s := by
  have hword : ∀ c ∈ s.toList, isBlank c = false := by
    intro c hc
    apply isBlank_of_word
    unfold isIdentifier at h
    split at h
    · rename_i hnil
      rw [hnil] at hc
      cases hc
    · rename_i first rest hcons
      rw [Bool.and_eq_true, List.all_eq_true] at h
      rw [hcons] at hc
      obtain rfl | hc := List.mem_cons.1 hc
      · obtain halpha | hunderscore := Bool.or_eq_true_iff.1 h.1
        · exact Bool.or_eq_true_iff.2 (.inl (Bool.or_eq_true_iff.2 (.inl halpha)))
        · exact Bool.or_eq_true_iff.2 (.inr hunderscore)
      · exact h.2 c hc
  refine trim_eq_self ⟨?_, ?_⟩
  · rw [Option.any_eq_false]
    exact fun c hc => by simpa using hword c (List.mem_of_mem_head? hc)
  · rw [Option.any_eq_false]
    exact fun c hc => by simpa using hword c (List.mem_of_getLast? hc)

end Text

namespace TypeConstraint

variable {name : String} {members : SortedSet} {rank : Nat} {v w : Value}

/-! ## Texts -/

/-- `m` is the first of the members that are the text `s` without the blanks around it, apart from
case. -/
structure FirstNamed (members : SortedSet) (s m : String) : Prop where
  declared : m ∈ members.keys
  named : Text.sameName m (Text.trim s) = true
  first : ∀ m' ∈ members.keys, Text.sameName m' (Text.trim s) = true → m ≤ m'

/-- In a list in increasing order, the first item of a kind is the least one. -/
theorem find?_eq_some_iff_least {l : List String} (h : l.Pairwise fun a b => compare a b = .lt)
    {p : String → Bool} {m : String} :
    l.find? p = some m ↔ m ∈ l ∧ p m = true ∧ ∀ m' ∈ l, p m' = true → m ≤ m' := by
  induction l with
  | nil => simp
  | cons a rest ih =>
    rw [List.pairwise_cons] at h
    have hle : ∀ b ∈ rest, a < b := fun b hb => compareOfLessAndEq_eq_lt.1 (h.1 b hb)
    by_cases ha : p a = true
    · rw [List.find?_cons_of_pos ha, Option.some.injEq]
      constructor
      · rintro rfl
        refine ⟨List.mem_cons_self, ha, List.forall_mem_cons.2 ⟨fun _ => String.le_refl _, ?_⟩⟩
        exact fun b hb _ => String.not_lt.1 (String.lt_asymm (hle b hb))
      · rintro ⟨hm, -, hleast⟩
        obtain rfl | hm := List.mem_cons.1 hm
        · rfl
        · exact absurd (hle m hm) (String.not_lt.2 (hleast a List.mem_cons_self ha))
    · rw [List.find?_cons_of_neg ha, ih h.2]
      constructor
      · rintro ⟨hm, hp, hleast⟩
        exact ⟨List.mem_cons_of_mem _ hm, hp,
          List.forall_mem_cons.2 ⟨fun hpa => absurd hpa ha, hleast⟩⟩
      · rintro ⟨hm, hp, hleast⟩
        obtain rfl | hm := List.mem_cons.1 hm
        · exact absurd hp ha
        · exact ⟨hm, hp, fun b hb => hleast b (List.mem_cons_of_mem _ hb)⟩

theorem memberOf?_string_iff {s m : String} :
    memberOf? members (.string s) = some m ↔ FirstNamed members s m := by
  rw [memberOf?, find?_eq_some_iff_least members.increasing_keys]
  constructor
  · rintro ⟨hm, hnamed, hfirst⟩
    exact ⟨hm, hnamed, hfirst⟩
  · intro h
    exact ⟨h.declared, h.named, h.first⟩

theorem memberOf?_eq_some_iff {m : String} :
    memberOf? members v = some m ↔ ∃ s, v = .string s ∧ FirstNamed members s m := by
  cases v with
  | string s => simp only [memberOf?_string_iff, Value.string.injEq, exists_eq_left']
  | _ => simp [memberOf?]

/-! ## Layers of arrays -/

/-- Under so many layers of arrays, each text of `v` has become a text of `w` as `R` says. A value
that is no list where one is expected stands for a list of one. -/
def Itemwise (R : String → String → Prop) : Nat → Value → Value → Prop
  | 0, v, w => ∃ s r, v = .string s ∧ w = .string r ∧ R s r
  | rank + 1, .array items, w =>
    ∃ results, w = .array results ∧ List.Forall₂ (Itemwise R rank) items results
  | _ + 1, .null, _ => False
  | rank + 1, v, w => ∃ result, w = .array [result] ∧ Itemwise R rank v result

/-- Under exactly so many layers of arrays stand texts with the property `P`, and nothing else. -/
def AllTexts (P : String → Prop) : Nat → Value → Prop
  | 0, v => ∃ s, v = .string s ∧ P s
  | rank + 1, v => ∃ items, v = .array items ∧ ∀ item ∈ items, AllTexts P rank item

/-- Coercing to an enum under layers of arrays replaces each text by the first member it names. -/
theorem coerce?_arrays_enum_iff :
    ((enum name members).arrays rank).coerce? v = some w ↔
      Itemwise (FirstNamed members) rank v w := by
  induction rank generalizing v w with
  | zero =>
    show (memberOf? members v).map Value.string = some w ↔ _
    simp only [Option.map_eq_some_iff, memberOf?_eq_some_iff, Itemwise]
    constructor
    · rintro ⟨m, ⟨s, rfl, hm⟩, rfl⟩
      exact ⟨s, m, rfl, rfl, hm⟩
    · rintro ⟨s, m, rfl, rfl, hm⟩
      exact ⟨m, ⟨s, rfl, hm⟩, rfl⟩
  | succ rank ih =>
    have hlone (hv : (array ((enum name members).arrays rank)).coerce? v =
        (((enum name members).arrays rank).coerce? v).map fun w => .array [w]) :
        (array ((enum name members).arrays rank)).coerce? v = some w ↔
          ∃ result, w = .array [result] ∧ Itemwise (FirstNamed members) rank v result := by
      rw [hv, Option.map_eq_some_iff]
      exact exists_congr fun result => by rw [ih, and_comm, eq_comm]
    show (array ((enum name members).arrays rank)).coerce? v = some w ↔ _
    cases v with
    | null => simp [coerce?, Itemwise]
    | array items =>
      simp only [coerce?, Option.map_eq_some_iff, Success.mapM_eq_some, ih, Itemwise]
      exact exists_congr fun results => by rw [and_comm, eq_comm]
    | bool b => exact hlone rfl
    | int n => exact hlone rfl
    | string s => exact hlone rfl
    | hashtable entries => exact hlone rfl

/-- What is the same item by item is built from texts that stay the same. -/
theorem itemwise_self_iff {R : String → String → Prop} :
    Itemwise R rank v v ↔ AllTexts (fun s => R s s) rank v := by
  induction rank generalizing v with
  | zero =>
    constructor
    · rintro ⟨s, r, rfl, heq, h⟩
      obtain rfl := Value.string.inj heq
      exact ⟨s, rfl, h⟩
    · rintro ⟨s, rfl, h⟩
      exact ⟨s, s, rfl, rfl, h⟩
  | succ rank ih =>
    cases v with
    | array items =>
      simp only [Itemwise, AllTexts, Value.array.injEq, exists_eq_left', List.forall₂_same, ih]
    | null => simp [Itemwise, AllTexts]
    | _ => simp [Itemwise, AllTexts]

theorem AllTexts.mono {P Q : String → Prop} (h : ∀ s, P s → Q s) (hv : AllTexts P rank v) :
    AllTexts Q rank v := by
  induction rank generalizing v with
  | zero =>
    obtain ⟨s, rfl, hs⟩ := hv
    exact ⟨s, rfl, h s hs⟩
  | succ rank ih =>
    obtain ⟨items, rfl, hitems⟩ := hv
    exact ⟨items, rfl, fun item hitem => ih (hitems item hitem)⟩

/-! ## Members that are kept -/

/-- `m` is a member, and no smaller one differs from it in case only. -/
structure Leads (members : SortedSet) (m : String) : Prop where
  declared : m ∈ members.keys
  first : ∀ m' ∈ members.keys, Text.sameName m' m = true → m ≤ m'

theorem firstNamed_self_iff (hmembers : ∀ m ∈ members.keys, isIdentifier m = true) {m : String} :
    FirstNamed members m m ↔ Leads members m := by
  constructor
  · intro h
    have htrim := Text.trim_of_isIdentifier (hmembers m h.declared)
    exact ⟨h.declared, fun m' hm' hsame => h.first m' hm' (by rwa [htrim])⟩
  · intro h
    have htrim := Text.trim_of_isIdentifier (hmembers m h.declared)
    refine ⟨h.declared, by rw [htrim]; exact Text.sameName_refl m, fun m' hm' hsame => ?_⟩
    exact h.first m' hm' (by rwa [htrim] at hsame)

/-- Members that differ in more than case all lead. -/
theorem leads_of_nodup (h : (members.keys.map Text.fold).Nodup) {m : String}
    (hm : m ∈ members.keys) : Leads members m where
  declared := hm
  first m' hm' hsame := by
    obtain rfl := List.inj_on_of_nodup_map h hm' hm (Text.sameName_iff.1 hsame)
    exact String.le_refl m'

/-- What becomes of texts that are coerced to an enum, under so many layers of arrays. -/
structure KeepsMembers (name : String) (members : SortedSet) (rank : Nat) : Prop where
  /-- Each text becomes the first member that it names, apart from case and blanks around it. It is
  an error if one names none. -/
  result : ∀ v w, ((enum name members).arrays rank).coerce v = .ok w ↔
    Itemwise (FirstNamed members) rank v w
  /-- A member stays as it is exactly if no smaller one differs from it in case only. -/
  kept : ∀ v, ((enum name members).arrays rank).coerce v = .ok v ↔
    AllTexts (Leads members) rank v
  /-- Where no two members differ in case only, all of them stay. -/
  all : (members.keys.map Text.fold).Nodup → ∀ v, AllTexts (· ∈ members.keys) rank v →
    ((enum name members).arrays rank).coerce v = .ok v

/-- An enum of identifiers gives declared members in their own spelling, and of those that differ in
case only the smallest. -/
theorem keepsMembers (hmembers : ∀ m ∈ members.keys, isIdentifier m = true) (name : String)
    (rank : Nat) : KeepsMembers name members rank := by
  have hresult : ∀ v w, ((enum name members).arrays rank).coerce v = .ok w ↔
      Itemwise (FirstNamed members) rank v w :=
    fun v w => coerce_eq_ok_iff.trans coerce?_arrays_enum_iff
  have hkept : ∀ v, ((enum name members).arrays rank).coerce v = .ok v ↔
      AllTexts (Leads members) rank v := by
    intro v
    rw [hresult, itemwise_self_iff]
    exact ⟨.mono fun s => (firstNamed_self_iff hmembers).1,
      .mono fun s => (firstNamed_self_iff hmembers).2⟩
  exact ⟨hresult, hkept, fun h v hv => (hkept v).2 (hv.mono fun m => leads_of_nodup h)⟩

/-! ### A sample -/

namespace Signal

/-- The members of an enum, which differ in case only. -/
def names : SortedSet := .ofTexts ["Go", "GO"]

theorem isIdentifier_names : ∀ m ∈ names.keys, isIdentifier m = true := by decide +kernel

/-- Whatever names one of them becomes the first. -/
theorem firstNamed_names {s : String}
    (h : (Text.trim s).toList.map Char.toLower = "GO".toList.map Char.toLower) :
    FirstNamed names s "GO" where
  declared := by decide +kernel
  named := Text.sameName_of_toList h.symm
  first m hm _ := by
    have hleast : ∀ m ∈ names.keys, "GO" ≤ m := by decide +kernel
    exact hleast m hm

end Signal

/-- A lone text, and lists of texts under two layers. The member `Go` does not stay in a list. -/
theorem keepsMembers_signals :
    (∀ m ∈ Signal.names.keys, isIdentifier m = true) ∧
    ((enum "Signal" Signal.names).arrays 1).coerce (.string " gO ") =
      .ok (.array [.string "GO"]) ∧
    ((enum "Signal" Signal.names).arrays 2).coerce (.array [.array [.string "Go"], .string "GO"]) =
      .ok (.array [.array [.string "GO"], .array [.string "GO"]]) ∧
    ((enum "Signal" Signal.names).arrays 1).coerce (.array [.string "Go"]) ≠
      .ok (.array [.string "Go"]) := by
  have hkeeps := keepsMembers Signal.isIdentifier_names "Signal"
  have hgo : FirstNamed Signal.names "Go" "GO" := Signal.firstNamed_names (by decide +kernel)
  have hGO : FirstNamed Signal.names "GO" "GO" := Signal.firstNamed_names (by decide +kernel)
  have hblanks : FirstNamed Signal.names " gO " "GO" := Signal.firstNamed_names (by decide +kernel)
  refine ⟨Signal.isIdentifier_names, ((hkeeps 1).result _ _).2 ?_, ((hkeeps 2).result _ _).2 ?_, ?_⟩
  · exact ⟨_, rfl, _, _, rfl, rfl, hblanks⟩
  · exact ⟨_, rfl, .cons ⟨_, rfl, .cons ⟨_, _, rfl, rfl, hgo⟩ .nil⟩
      (.cons ⟨_, rfl, _, _, rfl, rfl, hGO⟩ .nil)⟩
  · intro h
    obtain ⟨_, heq, hall⟩ := ((hkeeps 1).kept _).1 h
    obtain rfl := Value.array.inj heq
    obtain ⟨_, heq, hkept⟩ := hall _ List.mem_cons_self
    obtain rfl := Value.string.inj heq
    exact absurd (hkept.first "GO" hGO.declared (Text.sameName_of_toList (by decide))) (by decide)

/-- A declared member of an enum of identifiers is not kept, where another one differs from it in
case only. -/
theorem not_keepsMembers_go :
    (∀ m ∈ Signal.names.keys, isIdentifier m = true) ∧ "Go" ∈ Signal.names.keys ∧
      (enum "Signal" Signal.names).coerce (.string "Go") = .ok (.string "GO") ∧
      (enum "Signal" Signal.names).coerce (.string "Go") ≠ .ok (.string "Go") := by
  have hgo : FirstNamed Signal.names "Go" "GO" := Signal.firstNamed_names (by decide +kernel)
  have hcoerce : (enum "Signal" Signal.names).coerce (.string "Go") = .ok (.string "GO") :=
    coerce_eq_ok_iff.2 (Option.map_eq_some_iff.2 ⟨"GO", memberOf?_string_iff.2 hgo, rfl⟩)
  refine ⟨Signal.isIdentifier_names, by decide +kernel, hcoerce, ?_⟩
  rw [hcoerce]
  simp

end TypeConstraint

end KeywordEngine
