import Mathlib.Data.List.Forall2

/-!
# Successful computations

What it takes for a computation that may fail to succeed, step by step. Every check of the engine
is such a computation, and the proofs take them apart with these rules.
-/

namespace KeywordEngine

namespace Success

variable {ε ε' α β : Type}

@[simp] theorem bind_eq_ok {x : Except ε α} {f : α → Except ε β} {b : β} :
    (x >>= f) = .ok b ↔ ∃ a, x = .ok a ∧ f a = .ok b := by
  cases x <;> simp [bind, Except.bind]

@[simp] theorem ok_bind {a : α} {f : α → Except ε β} : (Except.ok a >>= f) = f a := rfl

@[simp] theorem error_bind {e : ε} {f : α → Except ε β} : (Except.error e >>= f) = .error e := rfl

@[simp] theorem pure_eq_ok {a b : α} : (pure a : Except ε α) = .ok b ↔ a = b := by
  simp [pure, Except.pure]

@[simp] theorem throw_ne_ok {e : ε} {a : α} : (throw e : Except ε α) ≠ .ok a := by
  simp [throw, throwThe, MonadExceptOf.throw]

@[simp] theorem throw_bind_ne_ok {e : ε} {f : α → Except ε β} {b : β} :
    ((throw e : Except ε α) >>= f) ≠ .ok b := by
  simp [throw, throwThe, MonadExceptOf.throw]

/-- A check that fails if `c` holds. -/
theorem ite_throw_eq_ok {c : Prop} [Decidable c] {e : ε} {f : α → Except ε β} {x : Except ε β}
    {b : β} : (if c then throw e >>= f else x) = .ok b ↔ ¬ c ∧ x = .ok b := by
  split <;> simp [*]

/-- A check that fails unless `c` holds. -/
theorem ite_else_throw_eq_ok {c : Prop} [Decidable c] {e : ε} {f : α → Except ε β}
    {x : Except ε β} {b : β} : (if c then x else throw e >>= f) = .ok b ↔ c ∧ x = .ok b := by
  split <;> simp [*]

@[simp] theorem mapError_ok {f : ε → ε'} {a : α} :
    (Except.ok a : Except ε α).mapError f = .ok a := rfl

@[simp] theorem mapError_error {f : ε → ε'} {e : ε} :
    (Except.error e : Except ε α).mapError f = .error (f e) := rfl

@[simp] theorem mapError_eq_ok {x : Except ε α} {f : ε → ε'} {a : α} :
    x.mapError f = .ok a ↔ x = .ok a := by
  cases x <;> simp

@[simp] theorem map_eq_ok {x : Except ε α} {f : α → β} {b : β} :
    x.map f = .ok b ↔ ∃ a, x = .ok a ∧ f a = b := by
  cases x <;> simp [Except.map]

/-- Going through a list succeeds exactly when every item does. -/
theorem mapM_eq_ok {f : α → Except ε β} {l : List α} {r : List β} :
    l.mapM f = .ok r ↔ List.Forall₂ (fun a b => f a = .ok b) l r := by
  induction l generalizing r with
  | nil => rw [List.mapM_nil, pure_eq_ok, List.forall₂_nil_left_iff, eq_comm]
  | cons a rest ih =>
    rw [List.mapM_cons, List.forall₂_cons_left_iff]
    simp only [bind_eq_ok, pure_eq_ok, ih]
    constructor
    · rintro ⟨b, hb, bs, hbs, rfl⟩
      exact ⟨b, bs, hb, hbs, rfl⟩
    · rintro ⟨b, bs, hb, hbs, rfl⟩
      exact ⟨b, hb, bs, hbs, rfl⟩

/-- Going through a list with a function whose results are known succeeds exactly when every item
is accepted. -/
theorem mapM_eq_ok_iff {f : α → Except ε β} {P : α → Prop} {g : α → β}
    (h : ∀ a b, f a = .ok b ↔ P a ∧ g a = b) {l : List α} {r : List β} :
    l.mapM f = .ok r ↔ (∀ a ∈ l, P a) ∧ l.map g = r := by
  rw [mapM_eq_ok]
  simp only [h]
  rw [List.forall₂_and_left, ← List.forall₂_map_left_iff, List.forall₂_eq_eq_eq]

/-- Going through a list finds a result exactly when every item has one. -/
theorem mapM_eq_some {f : α → Option β} {l : List α} {r : List β} :
    l.mapM f = some r ↔ List.Forall₂ (fun a b => f a = some b) l r := by
  induction l generalizing r with
  | nil => simp [eq_comm]
  | cons a rest ih =>
    rw [List.mapM_cons, List.forall₂_cons_left_iff]
    simp only [Option.bind_eq_bind, Option.bind_eq_some_iff, ih, Option.pure_def, Option.some.injEq]
    constructor
    · rintro ⟨b, hb, bs, hbs, rfl⟩
      exact ⟨b, bs, hb, hbs, rfl⟩
    · rintro ⟨b, bs, hb, hbs, rfl⟩
      exact ⟨b, hb, bs, hbs, rfl⟩

/-- Every item of the first of two matching lists has a partner in the second. -/
theorem exists_of_forall₂ {R : α → β → Prop} {l : List α} {r : List β} (h : List.Forall₂ R l r)
    {a : α} (ha : a ∈ l) : ∃ b ∈ r, R a b := by
  induction h with
  | nil => cases ha
  | cons hab _ ih =>
    rcases List.mem_cons.1 ha with rfl | ha
    · exact ⟨_, by simp, hab⟩
    · obtain ⟨b, hb, hR⟩ := ih ha
      exact ⟨b, List.mem_cons_of_mem _ hb, hR⟩

/-- What matches two lists in a row falls into two parts. -/
theorem forall₂_append_left_iff {R : α → β → Prop} {l₁ l₂ : List α} {r : List β} :
    List.Forall₂ R (l₁ ++ l₂) r ↔
      ∃ r₁ r₂, List.Forall₂ R l₁ r₁ ∧ List.Forall₂ R l₂ r₂ ∧ r₁ ++ r₂ = r := by
  constructor
  · intro h
    have hdrop := List.forall₂_drop l₁.length h
    have htake := List.forall₂_take l₁.length h
    rw [List.drop_left] at hdrop
    rw [List.take_left] at htake
    exact ⟨_, _, htake, hdrop, List.take_append_drop _ _⟩
  · rintro ⟨r₁, r₂, h₁, h₂, rfl⟩
    exact List.rel_append h₁ h₂

/-- What holds between the partners of two items holds, as far as it carries over, between any two
items in their order. -/
theorem pairwise_of_forall₂ {R : α → β → Prop} {S : α → α → Prop} {T : β → β → Prop} {l : List α}
    {r : List β} (h : List.Forall₂ R l r) (hr : r.Pairwise T)
    (hcarry : ∀ a a' b b', R a b → R a' b' → T b b' → S a a') : l.Pairwise S := by
  induction h with
  | nil => exact .nil
  | @cons a b l r hab hrest ih =>
    obtain ⟨hfirst, hr⟩ := List.pairwise_cons.1 hr
    refine List.pairwise_cons.2 ⟨fun a' ha' => ?_, ih hr⟩
    obtain ⟨b', hb', hR⟩ := exists_of_forall₂ hrest ha'
    exact hcarry a a' b b' hab hR (hfirst b' hb')

/-- If every item of a list has a partner, a whole list matches it. -/
theorem exists_forall₂ {R : α → β → Prop} {l : List α} (h : ∀ a ∈ l, ∃ b, R a b) :
    ∃ r, List.Forall₂ R l r := by
  induction l with
  | nil => exact ⟨[], .nil⟩
  | cons a rest ih =>
    obtain ⟨b, hb⟩ := h a List.mem_cons_self
    obtain ⟨bs, hbs⟩ := ih fun a ha => h a (List.mem_cons_of_mem _ ha)
    exact ⟨b :: bs, .cons hb hbs⟩

/-- Going through a list finds no result exactly when some item has none. -/
theorem mapM_eq_none {f : α → Option β} {l : List α} :
    l.mapM f = none ↔ ∃ a ∈ l, f a = none := by
  constructor
  · intro h
    by_contra hall
    obtain ⟨r, hr⟩ := exists_forall₂ (R := fun a b => f a = some b) (l := l) fun a ha =>
      Option.ne_none_iff_exists'.1 fun hnone => hall ⟨a, ha, hnone⟩
    rw [mapM_eq_some.2 hr] at h
    cases h
  · rintro ⟨a, ha, hnone⟩
    cases hr : l.mapM f with
    | none => rfl
    | some r =>
      obtain ⟨b, -, hb⟩ := exists_of_forall₂ (mapM_eq_some.1 hr) ha
      rw [hnone] at hb
      cases hb

end Success

end KeywordEngine
