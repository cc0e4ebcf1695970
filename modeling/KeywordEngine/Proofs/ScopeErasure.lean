import KeywordEngine.Proofs.Simulation

/-!
# Scope hooks only add code

Whether the invocations of a keyword open scopes does not matter to any check. It decides only
whether the instructions that belong to them stand in the code.

* `owned`: each instruction with the keyword to whose invocation it belongs.
* `Fragment.eraseScopes`: the code without the instructions that belong to some keywords.
* `Compiled.Alike`: outcomes with the same calls and either the same error or related results. It
  goes through every step of compilation (`Compiled.Alike.bind`).
* `alike_compileStatements`: compilation commutes with erasure, by induction on the tree of
  statements.
-/

namespace KeywordEngine

/-! ## Owners -/

/-- Each instruction with the keyword to whose invocation it belongs, if it belongs to one. The
keyword of the pending instance is `pending`, and those of the open scopes are `opened`, the
innermost first. -/
def owned (pending : Option Keyword) (opened : List (Option Keyword)) :
    Fragment → List (Option Keyword × Instruction)
  | [] => []
  | .instantiate k set arguments :: rest =>
    (some k, .instantiate k set arguments) :: owned (some k) opened rest
  | .assignProperties plans :: rest =>
    (pending, .assignProperties plans) :: owned pending opened rest
  | .enterScope :: rest => (pending, .enterScope) :: owned none (pending :: opened) rest
  | .leaveScope :: rest => (opened.head?.join, .leaveScope) :: owned pending opened.tail rest
  | .assign target value :: rest => (none, .assign target value) :: owned pending opened rest
  | .evaluate e :: rest => (none, .evaluate e) :: owned pending opened rest

/-- The code without the instructions that belong to invocations of keywords outside `keep`. -/
def Fragment.eraseScopes (keep : Keyword → Bool) (f : Fragment) : Fragment :=
  ((owned none [] f).filter (·.1.all keep)).map (·.2)

/-! ## Code of statements -/

/-- Code whose instructions belong to the invocations in it, wherever it stands. -/
def Fragment.OwnsItself (f : Fragment) : Prop :=
  ∀ opened rest, owned none opened (f ++ rest) = owned none [] f ++ owned none opened rest

/-- The code `full`, with the instructions of all its invocations, and what erasure makes of it. -/
structure Fragment.ErasesTo (keep : Keyword → Bool) (full code : Fragment) : Prop where
  ownsItself : full.OwnsItself
  erased : full.eraseScopes keep = code

namespace Fragment.ErasesTo

variable {keep : Keyword → Bool} {full full' code code' : Fragment}

theorem nil : ErasesTo keep [] [] := ⟨fun _ _ => rfl, rfl⟩

theorem append (h : ErasesTo keep full code) (h' : ErasesTo keep full' code') :
    ErasesTo keep (full ++ full') (code ++ code') where
  ownsItself opened rest := by
    rw [List.append_assoc, h.ownsItself, h'.ownsItself, h.ownsItself [] full', List.append_assoc]
  erased := by
    unfold eraseScopes
    rw [h.ownsItself, List.filter_append, List.map_append, ← h.erased, ← h'.erased]
    rfl

theorem assign (target : String) (value : Expr) :
    ErasesTo keep [.assign target value] [.assign target value] := ⟨fun _ _ => rfl, rfl⟩

theorem evaluate (e : Expr) : ErasesTo keep [.evaluate e] [.evaluate e] := ⟨fun _ _ => rfl, rfl⟩

end Fragment.ErasesTo

/-- The instructions that make an instance of a keyword. -/
inductive MakesInstance (k : Keyword) : List Instruction → Prop
  | plain (set : String) (arguments : List Plan) : MakesInstance k [.instantiate k set arguments]
  | hashtable (set : String) (arguments plans : List Plan) :
      MakesInstance k [.instantiate k set arguments, .assignProperties plans]

namespace MakesInstance

variable {k : Keyword} {start : List Instruction}

/-- In the code of a scope, all instructions but those of its block belong to its keyword. -/
theorem owned_scope (h : MakesInstance k start) {inner : Fragment} (hinner : inner.OwnsItself)
    (opened : List (Option Keyword)) (rest : Fragment) :
    owned none opened (start ++ .enterScope :: (inner ++ .leaveScope :: rest)) =
      start.map (some k, ·) ++ (some k, .enterScope) :: (owned none [] inner ++
        (some k, .leaveScope) :: owned none opened rest) := by
  cases h with
  | plain set arguments => simp [owned, hinner (some k :: opened)]
  | hashtable set arguments plans => simp [owned, hinner (some k :: opened)]

/-- A scope erases to itself around its erased block, or to this block alone. -/
theorem erasesTo (h : MakesInstance k start) {keep : Keyword → Bool} {r full : RuntimeInfo}
    (hkeep : keep k = r.usesScope) (hfull : full.usesScope = true) {inner code : Fragment}
    (hinner : Fragment.ErasesTo keep inner code) :
    Fragment.ErasesTo keep (withScope full start inner) (withScope r start code) := by
  unfold withScope
  rw [if_pos hfull]
  have hscope : start ++ [.enterScope] ++ inner ++ [.leaveScope] =
      start ++ .enterScope :: (inner ++ .leaveScope :: []) := by simp
  rw [hscope]
  constructor
  · intro opened rest
    have happend : start ++ .enterScope :: (inner ++ .leaveScope :: []) ++ rest =
        start ++ .enterScope :: (inner ++ .leaveScope :: rest) := by simp
    rw [happend, h.owned_scope hinner.ownsItself, h.owned_scope hinner.ownsItself]
    simp [owned]
  · unfold Fragment.eraseScopes
    rw [h.owned_scope hinner.ownsItself, ← hinner.erased, ← hkeep]
    cases hk : keep k <;> simp [Fragment.eraseScopes, List.filter_map, Function.comp_def, hk, owned]

end MakesInstance

/-! ## Outcomes -/

/-- Outcomes with the same calls and either the same error or related results. -/
inductive Compiled.Alike {α β : Type} (R : α → β → Prop) : Compiled α → Compiled β → Prop
  | ok (calls : List ParseCall) {a : α} {b : β} (related : R a b) :
      Alike R ⟨calls, .ok a⟩ ⟨calls, .ok b⟩
  | error (calls : List ParseCall) (e : CompileError) :
      Alike R ⟨calls, .error e⟩ ⟨calls, .error e⟩

namespace Compiled.Alike

variable {α β γ δ : Type} {R : α → β → Prop} {S : γ → δ → Prop} {x : Compiled α} {y : Compiled β}

theorem pure {a : α} {b : β} (h : R a b) : Alike R (Pure.pure a) (Pure.pure b) := .ok [] h

theorem refl (x : Compiled α) : Alike Eq x x := by
  obtain ⟨calls, result⟩ := x
  cases result with
  | ok a => exact .ok calls rfl
  | error e => exact .error calls e

theorem bind (h : Alike R x y) {f : α → Compiled γ} {g : β → Compiled δ}
    (hfg : ∀ a b, R a b → Alike S (f a) (g b)) : Alike S (x >>= f) (y >>= g) := by
  cases h with
  | error calls e => exact .error calls e
  | ok calls related =>
    rename_i a b
    show Alike S ⟨calls ++ (f a).calls, (f a).result⟩ ⟨calls ++ (g b).calls, (g b).result⟩
    have hnext := hfg a b related
    revert hnext
    generalize f a = next
    generalize g b = next'
    rintro (⟨others, related⟩ | ⟨others, e⟩)
    · exact .ok _ related
    · exact .error _ e

/-- Where both outcomes go on from the same step. -/
theorem bind_same {x : Compiled α} {f : α → Compiled γ} {g : α → Compiled δ}
    (hfg : ∀ a, Alike S (f a) (g a)) : Alike S (x >>= f) (x >>= g) :=
  (refl x).bind fun a _ h => h ▸ hfg a

theorem calls_eq (h : Alike R x y) : x.calls = y.calls := by
  cases h with
  | ok calls related => rfl
  | error calls e => rfl

/-- What is alike to one outcome has the same error, or both have results related to its result. -/
theorem results {z : Compiled γ} {T : α → γ → Prop} (h : Alike R x y) (h' : Alike T x z) :
    (∃ e, y.result = .error e ∧ z.result = .error e) ∨
      ∃ a b c, x.result = .ok a ∧ y.result = .ok b ∧ z.result = .ok c ∧ R a b ∧ T a c := by
  cases h with
  | error calls e =>
    cases h'
    exact .inl ⟨e, rfl, rfl⟩
  | ok calls related =>
    cases h' with
    | ok _ related' => exact .inr ⟨_, _, _, rfl, rfl, rfl, related, related'⟩

end Compiled.Alike

/-! ## Compilation -/

/-- Code that declares the same parse hooks, with the same bodies where they are declared. Nothing
is said of the scope hooks. -/
structure RuntimeInfo.SameParseHooks (r s : RuntimeInfo) : Prop where
  preParse : r.hooks.contains .preParse = s.hooks.contains .preParse
  postParse : r.hooks.contains .postParse = s.hooks.contains .postParse
  semanticCheck : r.hooks.contains .semanticCheck = s.hooks.contains .semanticCheck
  preParseBody : r.hooks.contains .preParse = true →
    r.implementation.preParse = s.implementation.preParse
  postParseBody : r.hooks.contains .postParse = true →
    r.implementation.postParse = s.implementation.postParse
  semanticCheckBody : r.hooks.contains .semanticCheck = true →
    r.implementation.semanticCheck = s.implementation.semanticCheck

namespace RuntimeInfo.SameParseHooks

variable {r s : RuntimeInfo} (h : r.SameParseHooks s) (n : Invocation)

include h

theorem runPreParse_eq : r.runPreParse n = s.runPreParse n := by
  unfold runPreParse
  rw [← h.preParse]
  split
  · rw [h.preParseBody ‹_›]
  · rfl

theorem runPostParse_eq : r.runPostParse n = s.runPostParse n := by
  unfold runPostParse
  rw [← h.postParse]
  split
  · rw [h.postParseBody ‹_›]
  · rfl

theorem runSemanticCheck_eq : r.runSemanticCheck n = s.runSemanticCheck n := by
  unfold runSemanticCheck
  rw [← h.semanticCheck]
  split
  · rw [h.semanticCheckBody ‹_›]
  · rfl

end RuntimeInfo.SameParseHooks

/-- Bindings under which a keyword has the same parse hooks, or no code at all. -/
def Bindings.SameParseHooks (b b' : Bindings) (k : Keyword) : Prop :=
  Option.Rel RuntimeInfo.SameParseHooks (b.runtime? k) (b'.runtime? k)

/-- Bindings under which a keyword has the parse hooks that it has under `b`, and a scope hook. -/
structure Bindings.Opens (full b : Bindings) (k : Keyword) : Prop where
  sameParseHooks : b.SameParseHooks full k
  usesScope : ∀ s, full.runtime? k = some s → s.usesScope = true

section Scripts

variable {bindArgs : ArgumentBinder} {b full : Bindings}

/-- The code of a scope erases to what a keyword without scope hooks has in its place. -/
theorem alike_compileBody {r s : RuntimeInfo} {n : Invocation} (bound : BoundArguments)
    (hkeep : b.opensScope n.keyword = r.usesScope) (hfull : s.usesScope = true)
    (hblock : Compiled.Alike (Fragment.ErasesTo b.opensScope)
      (compileStatements bindArgs full n.block) (compileStatements bindArgs b n.block)) :
    let instantiate := Instruction.instantiate n.keyword bound.set bound.arguments
    Compiled.Alike (Fragment.ErasesTo b.opensScope)
      (n.compileBody bindArgs full s instantiate) (n.compileBody bindArgs b r instantiate) := by
  intro instantiate
  have hplain := MakesInstance.plain (k := n.keyword) bound.set bound.arguments
  have hhashtable := MakesInstance.hashtable (k := n.keyword) bound.set bound.arguments
  cases hfits : n.bodyFits with
  | false =>
    rw [compileBody_of_not_bodyFits _ _ hfits, compileBody_of_not_bodyFits _ _ hfits]
    exact .error [] _
  | true =>
    obtain ⟨hmode, hbody⟩ | ⟨hmode, hbody⟩ | ⟨hmode, span, hbody⟩ := Invocation.bodyFits_iff.1 hfits
    · rw [compileBody_of_command _ _ hmode hbody, compileBody_of_command _ _ hmode hbody]
      exact .pure (hplain.erasesTo hkeep hfull .nil)
    · rw [compileBody_of_hashtable _ _ hmode hbody, compileBody_of_hashtable _ _ hmode hbody]
      refine .bind_same fun plans => ?_
      exact .pure ((hhashtable plans).erasesTo hkeep hfull .nil)
    · rw [compileBody_of_scriptBlock _ _ hmode hbody, compileBody_of_scriptBlock _ _ hmode hbody]
      refine .bind_same fun _ => hblock.bind fun inner code hcode => ?_
      exact .pure (hplain.erasesTo hkeep hfull hcode)

theorem alike_compileInvocation {n : Invocation} (h : full.Opens b n.keyword)
    (hblock : Compiled.Alike (Fragment.ErasesTo b.opensScope)
      (compileStatements bindArgs full n.block) (compileStatements bindArgs b n.block)) :
    Compiled.Alike (Fragment.ErasesTo b.opensScope)
      (compileInvocation bindArgs full n) (compileInvocation bindArgs b n) := by
  obtain ⟨hsame, hscope⟩ := h
  unfold Bindings.SameParseHooks at hsame
  cases hb : b.runtime? n.keyword with
  | none =>
    rw [hb] at hsame
    cases hfull : full.runtime? n.keyword with
    | none =>
      rw [compileInvocation_of_unbound _ _ hb, compileInvocation_of_unbound _ _ hfull]
      exact .error [] _
    | some s =>
      rw [hfull] at hsame
      cases hsame
  | some r =>
    rw [hb] at hsame
    cases hfull : full.runtime? n.keyword with
    | none =>
      rw [hfull] at hsame
      cases hsame
    | some s =>
      rw [hfull] at hsame
      obtain ⟨hhooks⟩ := hsame
      have hkeep : b.opensScope n.keyword = r.usesScope := by simp [Bindings.opensScope, hb]
      rw [compileInvocation_eq _ _ hb, compileInvocation_eq _ _ hfull, hhooks.runPreParse_eq,
        hhooks.runPostParse_eq, hhooks.runSemanticCheck_eq]
      refine .bind_same fun _ => .bind_same fun bound => .bind_same fun _ => ?_
      refine (alike_compileBody bound hkeep (hscope s hfull) hblock).bind fun inner code hcode => ?_
      exact .bind_same fun _ => .pure hcode

/-- Code one after the other is erased one after the other. -/
theorem alike_append {keep : Keyword → Bool} {x x' y y' : Compiled Fragment}
    (h : Compiled.Alike (Fragment.ErasesTo keep) x y)
    (h' : Compiled.Alike (Fragment.ErasesTo keep) x' y') :
    Compiled.Alike (Fragment.ErasesTo keep) (do return (← x) ++ (← x')) (do return (← y) ++ (← y')) :=
  h.bind fun _ _ hfirst => h'.bind fun _ _ hothers => .pure (hfirst.append hothers)

theorem alike_compileStatements {l : List Statement}
    (h : ∀ n ∈ reachedInvocations l, full.Opens b n.keyword) :
    Compiled.Alike (Fragment.ErasesTo b.opensScope)
      (compileStatements bindArgs full l) (compileStatements bindArgs b l) := by
  induction l using statements_induction with
  | nil =>
    rw [compileStatements, compileStatements]
    exact .pure .nil
  | assign target value span rest ih =>
    rw [reachedInvocations_assign] at h
    rw [compileStatements_cons, compileStatements_cons, compileStatement, compileStatement]
    exact alike_append (.pure (.assign target value)) (ih h)
  | evaluate e span rest ih =>
    rw [reachedInvocations_evaluate] at h
    rw [compileStatements_cons, compileStatements_cons, compileStatement, compileStatement]
    exact alike_append (.pure (.evaluate e)) (ih h)
  | invoke n rest ihblock ih =>
    rw [reachedInvocations_invoke] at h
    simp only [List.forall_mem_cons, List.forall_mem_append] at h
    obtain ⟨hn, hblock, hrest⟩ := h
    rw [compileStatements_cons, compileStatements_cons, compileStatement, compileStatement]
    exact alike_append (alike_compileInvocation hn (ihblock hblock)) (ih hrest)

theorem alike_compileTopStatement {s : Statement}
    (h : ∀ n ∈ s.reached, full.Opens b n.keyword) :
    Compiled.Alike (Fragment.ErasesTo b.opensScope)
      (compileTopStatement bindArgs full s) (compileTopStatement bindArgs b s) := by
  cases s with
  | assign target value span =>
    simp only [compileTopStatement, compileStatement]
    exact .pure (.assign target value)
  | evaluate e span =>
    simp only [compileTopStatement, compileStatement]
    exact .pure (.evaluate e)
  | invoke n =>
    rw [Statement.reached, Invocation.reached_eq, List.forall_mem_cons] at h
    simp only [compileTopStatement]
    split
    · exact .error [] _
    · exact alike_compileInvocation h.1 (alike_compileStatements h.2)

/-- A script compiles under the bindings that open all scopes to code that erases to its code under
the other ones. -/
theorem alike_compileScript {script : List Statement}
    (h : ∀ n ∈ reachedInvocations script, full.Opens b n.keyword) :
    Compiled.Alike (Fragment.ErasesTo b.opensScope)
      (compileScript bindArgs full script) (compileScript bindArgs b script) := by
  induction script with
  | nil => exact .pure .nil
  | cons s rest ih =>
    rw [reachedInvocations, List.forall_mem_append] at h
    rw [compileScript_cons, compileScript_cons]
    exact alike_append (alike_compileTopStatement h.1) (ih h.2)

end Scripts

/-! ## Two bindings -/

namespace RuntimeInfo.SameParseHooks

variable {r s t : RuntimeInfo}

theorem symm (h : r.SameParseHooks s) : s.SameParseHooks r where
  preParse := h.preParse.symm
  postParse := h.postParse.symm
  semanticCheck := h.semanticCheck.symm
  preParseBody hs := (h.preParseBody (h.preParse.trans hs)).symm
  postParseBody hs := (h.postParseBody (h.postParse.trans hs)).symm
  semanticCheckBody hs := (h.semanticCheckBody (h.semanticCheck.trans hs)).symm

theorem trans (h : r.SameParseHooks s) (h' : s.SameParseHooks t) : r.SameParseHooks t where
  preParse := h.preParse.trans h'.preParse
  postParse := h.postParse.trans h'.postParse
  semanticCheck := h.semanticCheck.trans h'.semanticCheck
  preParseBody hr := (h.preParseBody hr).trans (h'.preParseBody (h.preParse.symm.trans hr))
  postParseBody hr := (h.postParseBody hr).trans (h'.postParseBody (h.postParse.symm.trans hr))
  semanticCheckBody hr :=
    (h.semanticCheckBody hr).trans (h'.semanticCheckBody (h.semanticCheck.symm.trans hr))

end RuntimeInfo.SameParseHooks

/-- The code with both scope hooks declared. -/
def RuntimeInfo.withScopeHooks (r : RuntimeInfo) : RuntimeInfo where
  implementation := r.implementation
  hooks.contains
    | .enterScope | .leaveScope => true
    | hook => r.hooks.contains hook

theorem RuntimeInfo.sameParseHooks_withScopeHooks (r : RuntimeInfo) :
    r.SameParseHooks r.withScopeHooks :=
  ⟨rfl, rfl, rfl, fun _ => rfl, fun _ => rfl, fun _ => rfl⟩

namespace Bindings

variable {b b' full : Bindings} {k : Keyword}

/-- The bindings with both scope hooks declared for every keyword. -/
def withScopeHooks (b : Bindings) : Bindings :=
  ⟨b.entries.map fun e => (e.1, e.2.withScopeHooks)⟩

theorem find?_withScopeHooks (b : Bindings) (id : KeywordId) :
    b.withScopeHooks.find? id = (b.find? id).map (·.withScopeHooks) := by
  obtain ⟨entries⟩ := b
  simp only [withScopeHooks, find?]
  induction entries with
  | nil => rfl
  | cons e rest ih =>
    rw [List.map_cons, List.lookup_cons, List.lookup_cons, ih]
    cases id == e.1 <;> rfl

theorem SameParseHooks.symm (h : b.SameParseHooks b' k) : b'.SameParseHooks b k := by
  unfold SameParseHooks at *
  generalize b.runtime? k = o, b'.runtime? k = o' at *
  cases h with
  | none => exact .none
  | some h => exact .some h.symm

theorem SameParseHooks.trans {b'' : Bindings} (h : b.SameParseHooks b' k)
    (h' : b'.SameParseHooks b'' k) : b.SameParseHooks b'' k := by
  unfold SameParseHooks at *
  generalize b.runtime? k = o, b'.runtime? k = o', b''.runtime? k = o'' at *
  cases h with
  | none => exact h'
  | some h =>
    cases h' with
    | some h' => exact .some (h.trans h')

/-- There are always bindings that open all scopes. -/
theorem opens_withScopeHooks (b : Bindings) (k : Keyword) : b.withScopeHooks.Opens b k := by
  constructor
  · unfold SameParseHooks
    rw [runtime?, runtime?, find?_withScopeHooks]
    cases b.find? k.id with
    | none => exact .none
    | some r => exact .some r.sameParseHooks_withScopeHooks
  · intro s hs
    rw [runtime?, find?_withScopeHooks] at hs
    obtain ⟨r, -, rfl⟩ := Option.map_eq_some_iff.1 hs
    rfl

theorem Opens.of_sameParseHooks (h : full.Opens b k) (hsame : b.SameParseHooks b' k) :
    full.Opens b' k :=
  ⟨hsame.symm.trans h.sameParseHooks, h.usesScope⟩

end Bindings

namespace Sample

/-- Code for the sample keywords in which only the checks have a scope hook. -/
def onlyChecks : Bindings where
  entries := [
    (⟨0, [0]⟩, .of ⟨"Suite", fun _ => none, .empty, {}⟩),
    (⟨0, [0, 0]⟩, .of ⟨"Check", fun _ => none, .ofList [.enterScope], {}⟩),
    (⟨0, [0, 1]⟩, .of ⟨"Setup", fun _ => none, .empty, {}⟩)]

theorem sameParseHooks_onlyChecks (second : Option Expr) :
    ∀ n ∈ reachedInvocations (script second), code.SameParseHooks onlyChecks n.keyword := by
  have hsuite : code.SameParseHooks onlyChecks ⟨⟨0, [0]⟩, suite⟩ :=
    .some ⟨rfl, rfl, rfl, nofun, nofun, nofun⟩
  have hcheck : code.SameParseHooks onlyChecks ⟨⟨0, [0, 0]⟩, check⟩ :=
    .some ⟨rfl, rfl, rfl, nofun, nofun, nofun⟩
  have hsetup : code.SameParseHooks onlyChecks ⟨⟨0, [0, 1]⟩, setup⟩ :=
    .some ⟨rfl, rfl, rfl, nofun, nofun, nofun⟩
  simp [script, checkNamed, Invocation.block, hsuite, hcheck, hsetup]

end Sample

/-- Two bindings with the same parse hooks accept the same scripts, with the same calls and errors.
The code under each of them is the code under bindings that open all scopes without the instructions
that belong to invocations of keywords without scope hooks. -/
theorem compileScript_eraseScopes {bindArgs : ArgumentBinder} {b₁ b₂ : Bindings}
    {script : List Statement}
    (h : ∀ n ∈ reachedInvocations script, b₁.SameParseHooks b₂ n.keyword) :
    let c₁ := compileScript bindArgs b₁ script
    let c₂ := compileScript bindArgs b₂ script
    c₁.calls = c₂.calls ∧
      ((∃ e, c₁.result = .error e ∧ c₂.result = .error e) ∨
        ∃ f₁ f₂, c₁.result = .ok f₁ ∧ c₂.result = .ok f₂ ∧
          ∀ full : Bindings, (∀ n ∈ reachedInvocations script, full.Opens b₁ n.keyword) →
            ∃ f, (compileScript bindArgs full script).result = .ok f ∧
              f₁ = f.eraseScopes b₁.opensScope ∧ f₂ = f.eraseScopes b₂.opensScope) := by
  intro c₁ c₂
  have hboth (full : Bindings) (hfull : ∀ n ∈ reachedInvocations script, full.Opens b₁ n.keyword) :
      Compiled.Alike (Fragment.ErasesTo b₁.opensScope) (compileScript bindArgs full script) c₁ ∧
        Compiled.Alike (Fragment.ErasesTo b₂.opensScope) (compileScript bindArgs full script) c₂ :=
    ⟨alike_compileScript hfull,
      alike_compileScript fun n hn => (hfull n hn).of_sameParseHooks (h n hn)⟩
  obtain ⟨h₁, h₂⟩ := hboth b₁.withScopeHooks fun n _ => b₁.opens_withScopeHooks n.keyword
  refine ⟨h₁.calls_eq.symm.trans h₂.calls_eq, ?_⟩
  obtain ⟨e, he₁, he₂⟩ | ⟨_, f₁, f₂, -, hf₁, hf₂, -⟩ := h₁.results h₂
  · exact .inl ⟨e, he₁, he₂⟩
  · refine .inr ⟨f₁, f₂, hf₁, hf₂, fun full hopens => ?_⟩
    obtain ⟨h₁, h₂⟩ := hboth full hopens
    obtain ⟨e, he, -⟩ | ⟨f, _, _, hf, hf₁', hf₂', erases₁, erases₂⟩ := h₁.results h₂
    · exact absurd (hf₁.symm.trans he) nofun
    · obtain rfl := Except.ok.inj (hf₁.symm.trans hf₁')
      obtain rfl := Except.ok.inj (hf₂.symm.trans hf₂')
      exact ⟨f, hf, erases₁.erased.symm, erases₂.erased.symm⟩

/-- If of the sample keywords only the checks have a scope hook, half of the code is left. -/
theorem compileScript_eraseScopes_sample :
    ∃ f f₂, (compileScript bindArguments Sample.code.withScopeHooks
        (Sample.script none)).result = .ok f ∧
      (compileScript bindArguments Sample.onlyChecks (Sample.script none)).result = .ok f₂ ∧
      f₂ = f.eraseScopes Sample.onlyChecks.opensScope ∧ f.length = 14 ∧ f₂.length = 7 := by
  obtain ⟨-, ⟨e, he, -⟩ | ⟨f₁, f₂, -, hf₂, herase⟩⟩ :=
    @compileScript_eraseScopes bindArguments _ _ _ (Sample.sameParseHooks_onlyChecks none)
  · have hok : (compileScript bindArguments Sample.code (Sample.script none)).result.isOk = true := by
      decide +kernel
    rw [he] at hok
    cases hok
  · obtain ⟨f, hf, -, herase₂⟩ := herase _ fun n _ => Sample.code.opens_withScopeHooks n.keyword
    have hlength : (compileScript bindArguments Sample.code.withScopeHooks
        (Sample.script none)).result.map List.length = .ok 14 := by
      decide +kernel
    have hlength₂ : (compileScript bindArguments Sample.onlyChecks
        (Sample.script none)).result.map List.length = .ok 7 := by
      decide +kernel
    rw [hf] at hlength
    rw [hf₂] at hlength₂
    exact ⟨f, f₂, hf, hf₂, herase₂, Except.ok.inj hlength, Except.ok.inj hlength₂⟩

end KeywordEngine
