import KeywordEngine.Proofs.Coercion
import KeywordEngine.Proofs.Meaning
import KeywordEngine.Proofs.Success

/-!
# Folded values

A plan that was made for an assignment gives its target the value that the assignment gives it, no
matter whether the value was fitted when the plan was made or is fitted when the plan is resolved.

* `evaluate_of_constant?`: a constant expression has its value in every state.
* `resolve_of_plans`: resolving a plan is evaluating and fitting what it was made for.
* `resolvePlans_of_plans`: the same for lists, so that the first failure is the same, too.
* `coerce_of_plans`: the value is a fixed point of the constraint.
* `Expr.constant?_eq_none_iff`: what is not constant has a variable or a script block in it.
* `folds_faithfully`: planning and resolving an expression against evaluating and fitting it.
-/

namespace KeywordEngine

/-! ## Constants -/

mutual
/-- A constant expression has its value in every state. -/
theorem evaluate_of_constant? (vars : Variables) {e : Expr} {v : Value}
    (h : e.constant? = some v) : evaluate vars e = .ok v := by
  cases e with
  | literal w =>
    obtain rfl : w = v := by simpa [Expr.constant?] using h
    simp [evaluate]
  | readVariable name => simp [Expr.constant?] at h
  | array items =>
    obtain ⟨vs, hvs, rfl⟩ := Option.map_eq_some_iff.1 (by simpa [Expr.constant?] using h)
    simp [evaluate, evaluateItems_of_constantItems? vars hvs]
  | hashtable entries =>
    obtain ⟨vs, hvs, rfl⟩ := Option.map_eq_some_iff.1 (by simpa [Expr.constant?] using h)
    simp [evaluate, evaluateEntries_of_constantEntries? vars hvs]
  | scriptBlock statements span => simp [Expr.constant?] at h

theorem evaluateItems_of_constantItems? (vars : Variables) {l : List Expr} {vs : List Value}
    (h : constantItems? l = some vs) : evaluateItems vars l = .ok vs := by
  cases l with
  | nil =>
    obtain rfl : [] = vs := by simpa [constantItems?] using h
    simp [evaluateItems]
  | cons e rest =>
    simp only [constantItems?, Option.bind_eq_bind, Option.bind_eq_some_iff] at h
    obtain ⟨w, hw, ws, hws, h⟩ := h
    obtain rfl : w :: ws = vs := by simpa using h
    simp [evaluateItems, evaluate_of_constant? vars hw, evaluateItems_of_constantItems? vars hws]

theorem evaluateEntries_of_constantEntries? (vars : Variables) {l : List HashtableEntry}
    {vs : List (Value × Value)} (h : constantEntries? l = some vs) :
    evaluateEntries vars l = .ok vs := by
  cases l with
  | nil =>
    obtain rfl : [] = vs := by simpa [constantEntries?] using h
    simp [evaluateEntries]
  | cons entry rest =>
    obtain ⟨key, value, span⟩ := entry
    simp only [constantEntries?, Option.bind_eq_bind, Option.bind_eq_some_iff] at h
    obtain ⟨k, hk, w, hw, ws, hws, h⟩ := h
    obtain rfl : (k, w) :: ws = vs := by simpa using h
    simp [evaluateEntries, evaluate_of_constant? vars hk, evaluate_of_constant? vars hw,
      evaluateEntries_of_constantEntries? vars hws]
end

/-! ### Expressions that are not constant -/

/-- An expression stands in another: it is the other, or it stands in an item, a key or a value of
it. The statements of a script block are not looked at. -/
inductive Expr.Occurs (part : Expr) : Expr → Prop
  | here : Occurs part part
  | item {items : List Expr} {e : Expr} (listed : e ∈ items) (inside : Occurs part e) :
      Occurs part (.array items)
  | key {entries : List HashtableEntry} {entry : HashtableEntry} (listed : entry ∈ entries)
      (inside : Occurs part entry.key) : Occurs part (.hashtable entries)
  | value {entries : List HashtableEntry} {entry : HashtableEntry} (listed : entry ∈ entries)
      (inside : Occurs part entry.value) : Occurs part (.hashtable entries)

/-- The expressions of which nothing is known before they are evaluated. -/
inductive Expr.IsOpen : Expr → Prop
  | readVariable (name : String) : IsOpen (.readVariable name)
  | scriptBlock (statements : List Statement) (span : Span) : IsOpen (.scriptBlock statements span)

theorem constantItems?_eq_none_iff {l : List Expr} :
    constantItems? l = none ↔ ∃ e ∈ l, e.constant? = none := by
  induction l with
  | nil => simp [constantItems?]
  | cons e rest ih =>
    simp only [List.mem_cons, exists_eq_or_imp, ← ih, constantItems?]
    cases e.constant? with
    | none => simp
    | some v => cases constantItems? rest <;> simp

theorem constantEntries?_eq_none_iff {l : List HashtableEntry} :
    constantEntries? l = none ↔
      ∃ entry ∈ l, entry.key.constant? = none ∨ entry.value.constant? = none := by
  induction l with
  | nil => simp [constantEntries?]
  | cons entry rest ih =>
    obtain ⟨key, value, span⟩ := entry
    simp only [List.mem_cons, exists_eq_or_imp, ← ih, constantEntries?]
    cases key.constant? with
    | none => simp
    | some k =>
      cases value.constant? with
      | none => simp
      | some v => cases constantEntries? rest <;> simp

theorem Expr.constant?_eq_none_of_occurs {part e : Expr} (h : part.Occurs e) (hopen : part.IsOpen) :
    e.constant? = none := by
  induction h with
  | here =>
    cases hopen with
    | readVariable name => rw [Expr.constant?]
    | scriptBlock statements span => rw [Expr.constant?]
  | item listed _ ih =>
    rw [Expr.constant?, constantItems?_eq_none_iff.2 ⟨_, listed, ih⟩, Option.map_none]
  | key listed _ ih =>
    rw [Expr.constant?, constantEntries?_eq_none_iff.2 ⟨_, listed, .inl ih⟩, Option.map_none]
  | value listed _ ih =>
    rw [Expr.constant?, constantEntries?_eq_none_iff.2 ⟨_, listed, .inr ih⟩, Option.map_none]

theorem HashtableEntry.sizeOf_lt {entry : HashtableEntry} {entries : List HashtableEntry}
    (h : entry ∈ entries) :
    sizeOf entry.key < sizeOf entries ∧ sizeOf entry.value < sizeOf entries := by
  have hentry := List.sizeOf_lt_of_mem h
  obtain ⟨key, value, span⟩ := entry
  simp only [HashtableEntry.mk.sizeOf_spec] at hentry ⊢
  omega

theorem Expr.exists_open_of_constant?_eq_none :
    ∀ e : Expr, e.constant? = none → ∃ part : Expr, part.Occurs e ∧ part.IsOpen
  | .literal v, h => by rw [Expr.constant?] at h; cases h
  | .readVariable name, _ => ⟨_, .here, .readVariable name⟩
  | .scriptBlock statements span, _ => ⟨_, .here, .scriptBlock statements span⟩
  | .array items, h => by
    rw [Expr.constant?, Option.map_eq_none_iff, constantItems?_eq_none_iff] at h
    obtain ⟨e, listed, he⟩ := h
    have hsize := List.sizeOf_lt_of_mem listed
    obtain ⟨part, hpart, hopen⟩ := exists_open_of_constant?_eq_none e he
    exact ⟨part, .item listed hpart, hopen⟩
  | .hashtable entries, h => by
    rw [Expr.constant?, Option.map_eq_none_iff, constantEntries?_eq_none_iff] at h
    obtain ⟨entry, listed, hentry⟩ := h
    obtain ⟨hkey, hvalue⟩ := HashtableEntry.sizeOf_lt listed
    obtain hentry | hentry := hentry
    · obtain ⟨part, hpart, hopen⟩ := exists_open_of_constant?_eq_none entry.key hentry
      exact ⟨part, .key listed hpart, hopen⟩
    · obtain ⟨part, hpart, hopen⟩ := exists_open_of_constant?_eq_none entry.value hentry
      exact ⟨part, .value listed hpart, hopen⟩
termination_by e => sizeOf e

/-- What is not constant has a variable or a script block in it. -/
theorem Expr.constant?_eq_none_iff {e : Expr} :
    e.constant? = none ↔ ∃ part : Expr, part.Occurs e ∧ part.IsOpen :=
  ⟨Expr.exists_open_of_constant?_eq_none e,
    fun ⟨_, hpart, hopen⟩ => Expr.constant?_eq_none_of_occurs hpart hopen⟩

/-! ## Plans -/

/-- A plan that was made for an assignment. A bare name is planned for switches only. -/
inductive Plans : Assignment → Plan → Prop
  | expression {target : String} {c : TypeConstraint} {e : Expr} {operand : Operand}
      (planned : Operand.plan e c = .ok operand) :
      Plans ⟨target, c, some e⟩ ⟨target, c, operand⟩
  | switch {target : String} {c : TypeConstraint} (switch : c.isSwitch = true) :
      Plans ⟨target, c, none⟩ ⟨target, c, .constant (.bool true)⟩

variable {vars : Variables} {a : Assignment} {p : Plan}

theorem plans_expression_iff {target : String} {c : TypeConstraint} {e : Expr} :
    Plans ⟨target, c, some e⟩ p ↔
      ∃ operand, Operand.plan e c = .ok operand ∧ ⟨target, c, operand⟩ = p := by
  constructor
  · rintro ⟨planned⟩
    exact ⟨_, planned, rfl⟩
  · rintro ⟨operand, planned, rfl⟩
    exact .expression planned

theorem plans_switch_iff {target : String} {c : TypeConstraint} :
    Plans ⟨target, c, none⟩ p ↔ c.isSwitch = true ∧ ⟨target, c, .constant (.bool true)⟩ = p := by
  constructor
  · rintro ⟨⟩
    exact ⟨‹_›, rfl⟩
  · rintro ⟨switch, rfl⟩
    exact .switch switch

/-- There is a plan for an expression exactly if it is no constant that cannot be fitted. -/
theorem exists_plans_expression_iff {target : String} {c : TypeConstraint} {e : Expr} :
    (∃ plan, Plans ⟨target, c, some e⟩ plan) ↔
      ∀ v, e.constant? = some v → ∃ w, c.coerce v = .ok w := by
  simp only [plans_expression_iff, Operand.plan]
  cases e.constant? with
  | none => simp
  | some v => cases hv : c.coerce v <;> simp [hv, Except.map]

theorem Plans.target_eq (h : Plans a p) : p.target = a.target := by cases h <;> rfl

theorem targets_of_plans {l : List Assignment} {ps : List Plan} (h : List.Forall₂ Plans l ps) :
    ps.map (·.target) = l.map (·.target) := by
  induction h with
  | nil => rfl
  | cons hp _ ih => rw [List.map_cons, List.map_cons, hp.target_eq, ih]

theorem resolve_of_plans (h : Plans a p) : p.resolve vars = a.value vars := by
  cases h with
  | @expression target c e operand planned =>
    unfold Operand.plan at planned
    split at planned
    · rename_i v hv
      obtain ⟨w, hw, rfl⟩ := Success.map_eq_ok.1 planned
      simp [Plan.resolve, Assignment.value, evaluateAs, evaluate_of_constant? vars hv, hw]
    · cases planned
      rfl
  | switch switch => rfl

theorem resolvePlans_of_plans {l : List Assignment} {ps : List Plan}
    (h : List.Forall₂ Plans l ps) : resolvePlans vars ps = assignedValues vars l := by
  induction h with
  | nil => rfl
  | cons hp _ ih =>
    unfold resolvePlans assignedValues
    rw [resolve_of_plans hp, hp.target_eq, ih]

/-- A planned value is a fixed point of its constraint. -/
theorem coerce_of_plans {v : Value} (h : Plans a p) (hv : a.value vars = .ok v) :
    a.constraint.coerce v = .ok v := by
  cases h with
  | expression planned =>
    obtain ⟨w, -, hw⟩ := Success.bind_eq_ok.1 hv
    exact TypeConstraint.coerce_coerce (Success.mapError_eq_ok.1 hw)
  | @switch target c switch =>
    obtain rfl : .bool true = v := by simpa [Assignment.value] using hv
    cases c with
    | bool => rfl
    | _ => simp [TypeConstraint.isSwitch] at switch

/-! ## Planning against evaluating -/

/-- Making a plan for an expression and resolving it is evaluating the expression and fitting its
value, in failure, too. -/
theorem resolve_plan (vars : Variables) (target : String) (e : Expr) (c : TypeConstraint) :
    (do
      let operand ← (Operand.plan e c).mapError (.coercion target)
      Plan.resolve vars ⟨target, c, operand⟩) = evaluateAs vars target c e := by
  unfold Operand.plan evaluateAs
  cases he : e.constant? with
  | none => rfl
  | some v =>
    rw [evaluate_of_constant? vars he]
    cases hv : c.coerce v with
    | error error => simp [hv, Except.map]
    | ok w => simp [hv, Except.map, Plan.resolve]

/-- Fitting an expression when its plan is made comes to the same as fitting it when the plan is
resolved. -/
structure FoldsFaithfully (e : Expr) (c : TypeConstraint) : Prop where
  /-- A constant expression has its value in every context. -/
  value : ∀ v, e.constant? = some v →
    ∀ context : ExecutionContext, evaluate context.vars e = .ok v
  /-- A plan that is made resolves to the fitted value of the expression, or fails as fitting it
  does. -/
  planned : ∀ operand, Operand.plan e c = .ok operand →
    ∀ (context : ExecutionContext) (target : String),
      Plan.resolve context.vars ⟨target, c, operand⟩ = evaluateAs context.vars target c e
  /-- If no plan is made, fitting the value of the expression fails for the same reason. -/
  refused : ∀ error, Operand.plan e c = .error error →
    ∀ (context : ExecutionContext) (target : String),
      evaluateAs context.vars target c e = .error (.coercion target error)
  /-- The expressions that are not constant. -/
  notConstant : e.constant? = none ↔ ∃ part : Expr, part.Occurs e ∧ part.IsOpen

/-- Folding an expression into a plan agrees with evaluating it, for every constraint and in every
context, and exactly the expressions without variables and script blocks are folded. -/
theorem folds_faithfully (e : Expr) (c : TypeConstraint) : FoldsFaithfully e c where
  value _ h context := evaluate_of_constant? context.vars h
  planned operand h context target := by
    rw [← resolve_plan, h]
    rfl
  refused error h context target := by
    rw [← resolve_plan, h]
    rfl
  notConstant := Expr.constant?_eq_none_iff

end KeywordEngine
