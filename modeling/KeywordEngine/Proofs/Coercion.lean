import KeywordEngine.Constraint.Coercion
import KeywordEngine.Proofs.Success

/-!
# Coerced values

What coercion gives meets the constraint, so coercing it again changes nothing.

* `coerce_coerce`: a coerced value is a fixed point of its constraint.
* `trim_eq_self_of_fold_eq`: a text that differs from a trimmed text at most in case has no blanks
  to trim. This is why the declared spelling of an enum member finds itself again.
* `Inhabits`, `inhabits_of_coerce`: a coerced value is of the type that the constraint asks for.
* `Misfit`, `coerce?_eq_none_iff`: coercion fails exactly if something misfits, at whatever depth.
* `lawful_coerce`: all of this for one constraint and one value, with the error of a failure.
-/

namespace KeywordEngine

namespace Text

/-! ## Trimmed texts -/

/-- Folding a character keeps whether it is a blank. -/
theorem isBlank_toLower (c : Char) : isBlank c.toLower = isBlank c := by
  by_cases h : c.toNat < 128
  · have small : ∀ n < 128, isBlank (Char.ofNat n).toLower = isBlank (Char.ofNat n) := by decide
    have := small c.toNat h
    rwa [Char.ofNat_toNat] at this
  · -- beyond ASCII nothing is folded
    unfold Char.toLower
    rw [dif_neg]
    intro upper
    have hz := upper.2
    rw [UInt32.le_iff_toNat_le] at hz
    have : c.toNat ≤ 90 := hz
    omega

/-- Neither end of a text is a blank. -/
def BareEnds (cs : List Char) : Prop :=
  cs.head?.any isBlank = false ∧ cs.getLast?.any isBlank = false

/-- Folding keeps bare ends. -/
theorem bareEnds_map_toLower {cs : List Char} : BareEnds (cs.map Char.toLower) ↔ BareEnds cs := by
  unfold BareEnds
  rw [List.head?_map, List.getLast?_map, Option.any_map, Option.any_map]
  simp only [isBlank_toLower]

private theorem dropWhile_isBlank_eq_self {cs : List Char} (h : cs.head?.any isBlank = false) :
    cs.dropWhile isBlank = cs := by
  cases cs with
  | nil => rfl
  | cons c rest => exact List.dropWhile_cons_of_neg (by simpa using h)

theorem trim_eq_self {s : String} (h : BareEnds s.toList) : trim s = s := by
  have hr : s.toList.reverse.head?.any isBlank = false := by
    rw [List.head?_reverse]; exact h.2
  unfold trim trimEnd
  rw [dropWhile_isBlank_eq_self h.1, dropWhile_isBlank_eq_self hr, List.reverse_reverse,
    String.ofList_toList]

private theorem head?_dropWhile_any (cs : List Char) :
    (cs.dropWhile isBlank).head?.any isBlank = false := by
  have := List.head?_dropWhile_not isBlank cs
  cases h : (cs.dropWhile isBlank).head? with
  | none => rfl
  | some c => simpa [h] using this

theorem bareEnds_trim (s : String) : BareEnds (trim s).toList := by
  unfold trim trimEnd
  rw [String.toList_ofList]
  have hcs := head?_dropWhile_any s.toList
  generalize s.toList.dropWhile isBlank = cs at hcs
  refine ⟨?_, ?_⟩
  · -- what is left starts as `cs` does, or nothing is left
    have hp : (cs.reverse.dropWhile isBlank).reverse <+: cs := by
      have := List.reverse_prefix.2 (List.dropWhile_suffix (l := cs.reverse) isBlank)
      rwa [List.reverse_reverse] at this
    obtain ⟨rest, hrest⟩ := hp
    generalize (cs.reverse.dropWhile isBlank).reverse = kept at hrest
    cases kept with
    | nil => rfl
    | cons c tail => subst hrest; simpa using hcs
  · rw [List.getLast?_reverse]
    exact head?_dropWhile_any _

/-- A text that differs from a trimmed text at most in case has no blanks to trim. -/
theorem trim_eq_self_of_fold_eq {m s : String} (h : fold m = fold (trim s)) : trim m = m := by
  have hm : m.toList.map Char.toLower = (trim s).toList.map Char.toLower := by
    simpa [fold] using congrArg String.toList h
  apply trim_eq_self
  rw [← bareEnds_map_toLower, hm, bareEnds_map_toLower]
  exact bareEnds_trim s

end Text

namespace TypeConstraint

/-! ## Fixed points -/

/-- A member that a value names is itself named by its declared spelling. -/
theorem memberOf?_memberOf? {members : SortedSet} {v : Value} {m : String}
    (h : memberOf? members v = some m) : memberOf? members (.string m) = some m := by
  cases v with
  | string s =>
    have hm : Text.fold m = Text.fold (Text.trim s) := by
      have found := List.find?_some (p := (Text.sameName · (Text.trim s))) h
      exact Text.sameName_iff.1 found
    have same : (fun c => Text.sameName c (Text.trim m)) = fun c => Text.sameName c (Text.trim s) := by
      funext c
      rw [Text.trim_eq_self_of_fold_eq hm, Text.sameName, Text.sameName, hm]
    show members.keys.find? (fun c => Text.sameName c (Text.trim m)) = some m
    rw [same]
    exact h
  | _ => simp [memberOf?] at h

theorem coerce?_coerce? {c : TypeConstraint} {v w : Value} (h : c.coerce? v = some w) :
    c.coerce? w = some w := by
  induction c generalizing v w with
  | any => rfl
  | unchecked name => rfl
  | bool =>
    obtain ⟨b, -, rfl⟩ := Option.map_eq_some_iff.1 h
    rfl
  | int =>
    obtain ⟨n, -, rfl⟩ := Option.map_eq_some_iff.1 h
    rfl
  | string =>
    obtain ⟨s, -, rfl⟩ := Option.map_eq_some_iff.1 h
    rfl
  | hashtable =>
    cases v with
    | hashtable entries =>
      obtain rfl : Value.hashtable entries = w := by simpa [coerce?] using h
      rfl
    | _ => simp [coerce?] at h
  | enum name members =>
    obtain ⟨m, hm, rfl⟩ := Option.map_eq_some_iff.1 h
    exact Option.map_eq_some_iff.2 ⟨m, memberOf?_memberOf? hm, rfl⟩
  | array element ih =>
    -- a list is coerced item by item; any other value becomes a list of one coerced item
    cases v with
    | null => simp [coerce?] at h
    | array items =>
      obtain ⟨ws, hws, rfl⟩ := Option.map_eq_some_iff.1 h
      have hitems := Success.mapM_eq_some.1 hws
      have hfixed : ws.mapM (coerce? _) = some ws :=
        Success.mapM_eq_some.2 (List.forall₂_same.2 fun w hw => by
          obtain ⟨item, -, hitem⟩ := Success.exists_of_forall₂ hitems.flip hw
          exact ih hitem)
      exact Option.map_eq_some_iff.2 ⟨ws, hfixed, rfl⟩
    | _ =>
      obtain ⟨x, hx, rfl⟩ := Option.map_eq_some_iff.1 h
      simp [coerce?, ih hx]

/-- A coerced value is a fixed point of its constraint. -/
theorem coerce_coerce {c : TypeConstraint} {v w : Value} (h : c.coerce v = .ok w) :
    c.coerce w = .ok w :=
  coerce_eq_ok_iff.2 (coerce?_coerce? (coerce_eq_ok_iff.1 h))

/-! ## Inhabitants -/

/-- The values of the type that a constraint asks for. -/
inductive Inhabits : TypeConstraint → Value → Prop
  | any (v : Value) : Inhabits any v
  | unchecked (name : String) (v : Value) : Inhabits (unchecked name) v
  | bool (b : Bool) : Inhabits bool (.bool b)
  | int (n : Int64) : Inhabits int (.int n)
  | string (s : String) : Inhabits string (.string s)
  | hashtable (entries : List (Value × Value)) : Inhabits hashtable (.hashtable entries)
  /-- One of the members, in its declared spelling. -/
  | enum {name m : String} {members : SortedSet} (declared : m ∈ members.keys) :
      Inhabits (enum name members) (.string m)
  | array {element : TypeConstraint} {items : List Value}
      (each : ∀ v ∈ items, Inhabits element v) : Inhabits (array element) (.array items)

/-- What a value names is a member in its declared spelling. -/
theorem mem_keys_of_memberOf? {members : SortedSet} {v : Value} {m : String}
    (h : memberOf? members v = some m) : m ∈ members.keys := by
  cases v with
  | string s => exact List.mem_of_find?_eq_some h
  | _ => simp [memberOf?] at h

theorem inhabits_of_coerce? {c : TypeConstraint} {v w : Value} (h : c.coerce? v = some w) :
    Inhabits c w := by
  induction c generalizing v w with
  | any => exact .any w
  | unchecked name => exact .unchecked name w
  | bool =>
    obtain ⟨b, -, rfl⟩ := Option.map_eq_some_iff.1 h
    exact .bool b
  | int =>
    obtain ⟨n, -, rfl⟩ := Option.map_eq_some_iff.1 h
    exact .int n
  | string =>
    obtain ⟨s, -, rfl⟩ := Option.map_eq_some_iff.1 h
    exact .string s
  | hashtable =>
    cases v with
    | hashtable entries =>
      obtain rfl : Value.hashtable entries = w := by simpa [coerce?] using h
      exact .hashtable entries
    | _ => simp [coerce?] at h
  | enum name members =>
    obtain ⟨m, hm, rfl⟩ := Option.map_eq_some_iff.1 h
    exact .enum (mem_keys_of_memberOf? hm)
  | array element ih =>
    cases v with
    | null => simp [coerce?] at h
    | array items =>
      obtain ⟨ws, hws, rfl⟩ := Option.map_eq_some_iff.1 h
      refine .array fun x hx => ?_
      obtain ⟨item, -, hitem⟩ := Success.exists_of_forall₂ (Success.mapM_eq_some.1 hws).flip hx
      exact ih hitem
    | _ =>
      obtain ⟨x, hx, rfl⟩ := Option.map_eq_some_iff.1 h
      refine .array fun y hy => ?_
      obtain rfl := List.mem_singleton.1 hy
      exact ih hx

/-- A coerced value is of the type that the constraint asks for. -/
theorem inhabits_of_coerce {c : TypeConstraint} {v w : Value} (h : c.coerce v = .ok w) :
    Inhabits c w :=
  inhabits_of_coerce? (coerce_eq_ok_iff.1 h)

/-! ## Misfits -/

/-- Somewhere in a value, perhaps below many layers of arrays, there is one that stands for nothing
of the type that it would need. A list misfits by one of its items, and a lone value misfits an array
if it would misfit as the only item. -/
inductive Misfit : TypeConstraint → Value → Prop
  | bool {v : Value} (unread : boolOf? v = none) : Misfit bool v
  | int {v : Value} (unread : intOf? v = none) : Misfit int v
  | string {v : Value} (unread : stringOf? v = none) : Misfit string v
  | hashtable {v : Value} (other : ∀ entries, v ≠ .hashtable entries) : Misfit hashtable v
  | enum {name : String} {members : SortedSet} {v : Value} (unnamed : memberOf? members v = none) :
      Misfit (enum name members) v
  | null (element : TypeConstraint) : Misfit (array element) .null
  | item {element : TypeConstraint} {items : List Value} {v : Value} (listed : v ∈ items)
      (misfit : Misfit element v) : Misfit (array element) (.array items)
  | lone {element : TypeConstraint} {v : Value} (lone : ∀ items, v ≠ .array items)
      (misfit : Misfit element v) : Misfit (array element) v

theorem coerce?_eq_none_of_misfit {c : TypeConstraint} {v : Value} (h : Misfit c v) :
    c.coerce? v = none := by
  induction h with
  | bool unread => exact Option.map_eq_none_iff.2 unread
  | int unread => exact Option.map_eq_none_iff.2 unread
  | string unread => exact Option.map_eq_none_iff.2 unread
  | @hashtable v other =>
    cases v with
    | hashtable entries => exact absurd rfl (other entries)
    | _ => rfl
  | enum unnamed => exact Option.map_eq_none_iff.2 unnamed
  | null element => rfl
  | item listed _ ih => exact Option.map_eq_none_iff.2 (Success.mapM_eq_none.2 ⟨_, listed, ih⟩)
  | @lone element v lone _ ih =>
    cases v with
    | null => rfl
    | array items => exact absurd rfl (lone items)
    | _ => exact Option.map_eq_none_iff.2 ih

theorem misfit_of_coerce?_eq_none {c : TypeConstraint} {v : Value} (h : c.coerce? v = none) :
    Misfit c v := by
  induction c generalizing v with
  | any => cases h
  | unchecked name => cases h
  | bool => exact .bool (Option.map_eq_none_iff.1 h)
  | int => exact .int (Option.map_eq_none_iff.1 h)
  | string => exact .string (Option.map_eq_none_iff.1 h)
  | hashtable =>
    refine .hashtable fun entries heq => ?_
    subst heq
    cases h
  | enum name members => exact .enum (Option.map_eq_none_iff.1 h)
  | array element ih =>
    cases v with
    | null => exact .null element
    | array items =>
      obtain ⟨item, listed, hitem⟩ := Success.mapM_eq_none.1 (Option.map_eq_none_iff.1 h)
      exact .item listed (ih hitem)
    | _ => exact .lone (by simp) (ih (Option.map_eq_none_iff.1 h))

/-- Coercion finds nothing exactly if something misfits. -/
theorem coerce?_eq_none_iff {c : TypeConstraint} {v : Value} :
    c.coerce? v = none ↔ Misfit c v :=
  ⟨misfit_of_coerce?_eq_none, coerce?_eq_none_of_misfit⟩

/-! ## Coercion as a whole -/

/-- What coercing a value to a constraint does. -/
structure LawfulCoercion (c : TypeConstraint) (v : Value) : Prop where
  /-- The result is of the type asked for. -/
  sound : ∀ w, c.coerce v = .ok w → Inhabits c w
  /-- Coercing the result again gives the same. -/
  idempotent : ∀ w, c.coerce v = .ok w → c.coerce w = .ok w
  /-- Failures are due to a misfit, at whatever depth. -/
  fails : (∃ e, c.coerce v = .error e) ↔ Misfit c v
  /-- The error names the whole constraint and the whole value. -/
  blame : ∀ e, c.coerce v = .error e →
    e.expected = c.text ∧ e.found = v.kindName ∧ e.value = v.text

/-- Coercion gives values of the type asked for, which it then leaves alone. It fails exactly if
something misfits, and blames the whole value wherever the misfit is. -/
theorem lawful_coerce (c : TypeConstraint) (v : Value) : LawfulCoercion c v where
  sound _ h := inhabits_of_coerce h
  idempotent _ h := coerce_coerce h
  fails := by
    rw [← coerce?_eq_none_iff]
    constructor
    · rintro ⟨e, h⟩
      exact (coerce_eq_error_iff.1 h).1
    · intro h
      exact ⟨c.mismatch v, coerce_eq_error_iff.2 ⟨h, rfl⟩⟩
  blame e h := by
    obtain ⟨-, rfl⟩ := coerce_eq_error_iff.1 h
    exact ⟨rfl, rfl, rfl⟩

end TypeConstraint

end KeywordEngine
