import KeywordEngine.Proofs.Compilation
import KeywordEngine.Proofs.Forest

/-!
# Which keywords may stand where

Where every invocation of a script passes the checks that look at it alone, the script compiles
exactly if its keywords stand where they may and as often as they may.

* `Keyword.Admits`: the rules for the statements of a block, said of identities and counts.
* `checkNesting_eq_ok`: the check of a block decides these rules. It compares names where the rules
  compare identities, which comes to the same because the children of a discovered keyword have
  different names.
* `compileScript_isOk_iff_admits`: the whole script.
-/

namespace KeywordEngine

/-! ## Rules for a block -/

/-- The invocations that stand directly among statements, in order. -/
def directInvocations : List Statement → List Invocation
  | [] => []
  | .invoke n :: rest => n :: directInvocations rest
  | .assign .. :: rest => directInvocations rest
  | .evaluate .. :: rest => directInvocations rest

/-- How often a keyword is invoked directly among statements. -/
def useCount (k : Keyword) (l : List Statement) : Nat :=
  (directInvocations l).countP (·.keyword.id == k.id)

/-- The rules for the statements in a block of `parent`: what is invoked there is not nested or is
a child of `parent`, and every child is invoked as often as its use mode demands. -/
structure Keyword.Admits (parent : Keyword) (l : List Statement) : Prop where
  inScope : ∀ n ∈ directInvocations l,
    n.keyword.spec.nested = false ∨ ∃ c ∈ parent.children, c.id = n.keyword.id
  atMostOnce : ∀ c ∈ parent.children, c.spec.use = .optional ∨ c.spec.use = .required →
    useCount c l ≤ 1
  atLeastOnce : ∀ c ∈ parent.children, c.spec.use = .required ∨ c.spec.use = .requiredMany →
    1 ≤ useCount c l

theorem UseMode.allowsMany_eq_false {u : UseMode} :
    u.allowsMany = false ↔ u = .optional ∨ u = .required := by
  cases u <;> simp [allowsMany]

theorem UseMode.isRequired_eq_true {u : UseMode} :
    u.isRequired = true ↔ u = .required ∨ u = .requiredMany := by
  cases u <;> simp [isRequired]

theorem useCount_invoke (k : Keyword) (n : Invocation) (rest : List Statement) :
    useCount k (.invoke n :: rest) =
      useCount k rest + if n.keyword.id = k.id then 1 else 0 := by
  simp [useCount, directInvocations, List.countP_cons]

theorem Keyword.isChildOf_iff {k parent : Keyword} :
    k.isChildOf parent = true ↔ ∃ c ∈ parent.children, c.id = k.id := by
  simp [isChildOf]

/-! ## The check of a block -/

section Check

variable {parent : Keyword} {used used' : List String} {l : List Statement}

/-- Statements that agree with a keyword about its children: what is invoked in the place of a child
is that child. -/
def Keyword.Agrees (parent : Keyword) (l : List Statement) : Prop :=
  ∀ n ∈ directInvocations l, ∀ c ∈ parent.children, c.id = n.keyword.id → c = n.keyword

theorem Keyword.Agrees.mem_children {n : Invocation} (h : parent.Agrees (.invoke n :: l))
    (hchild : n.keyword.isChildOf parent = true) : n.keyword ∈ parent.children := by
  obtain ⟨child, hmem, hid⟩ := Keyword.isChildOf_iff.1 hchild
  rwa [← h n List.mem_cons_self child hmem hid]

theorem Keyword.Agrees.of_invoke {n : Invocation} (h : parent.Agrees (.invoke n :: l)) :
    parent.Agrees l := fun m hm => h m (List.mem_cons_of_mem _ hm)

/-- No child of `parent` that may stand once stands twice, or after a use in `used`. -/
def Keyword.Spares (parent : Keyword) (used : List String) (l : List Statement) : Prop :=
  ∀ c ∈ parent.children, c.spec.use.allowsMany = false →
    useCount c l ≤ 1 ∧ (c.name ∈ used → useCount c l = 0)

/-- Names tell the children of a keyword apart if they are different. -/
theorem Keyword.name_eq_iff_id_eq (hnames : (parent.children.map (·.name)).Nodup) {c k : Keyword}
    (hc : c ∈ parent.children) (hk : k ∈ parent.children) : c.name = k.name ↔ k.id = c.id := by
  constructor
  · intro h
    rw [List.inj_on_of_nodup_map hnames hc hk h]
  · intro h
    rw [Keyword.eq_of_mem_children hk hc h]

/-- An invocation of a child counts for that child alone. -/
theorem useCount_invoke_child (hnames : (parent.children.map (·.name)).Nodup) {c : Keyword}
    {n : Invocation} (hc : c ∈ parent.children) (hn : n.keyword ∈ parent.children) :
    useCount c (.invoke n :: l) ≤ 1 ∧ (c.name ∈ used → useCount c (.invoke n :: l) = 0) ↔
      (n.keyword = c → c.name ∉ used) ∧
        useCount c l ≤ 1 ∧ (c.name ∈ n.keyword.name :: used → useCount c l = 0) := by
  rw [useCount_invoke, List.mem_cons, Keyword.name_eq_iff_id_eq hnames hc hn]
  by_cases hid : n.keyword.id = c.id
  · have hkeyword := Keyword.eq_of_mem_children hn hc hid
    simp only [hkeyword, if_true, true_or, true_imp_iff]
    constructor
    · rintro ⟨hcount, hunused⟩
      exact ⟨fun hused => absurd (hunused hused) (by omega), by omega, by omega⟩
    · rintro ⟨hunused, -, hcount⟩
      exact ⟨by omega, fun hused => absurd hused hunused⟩
  · have hkeyword : n.keyword ≠ c := fun h => hid (congrArg Keyword.id h)
    simp [hid, hkeyword]

/-- A use of a child is spared if the child was unused or may stand often. -/
theorem Keyword.spares_invoke_child (hnames : (parent.children.map (·.name)).Nodup)
    {n : Invocation} (hn : n.keyword ∈ parent.children) :
    parent.Spares used (.invoke n :: l) ↔
      (n.keyword.name ∈ used → n.keyword.spec.use.allowsMany = true) ∧
        parent.Spares (n.keyword.name :: used) l := by
  constructor
  · intro h
    have hcounts c hc hone := (useCount_invoke_child hnames hc hn).1 (h c hc hone)
    refine ⟨fun hused => ?_, fun c hc hone => (hcounts c hc hone).2⟩
    by_contra hone
    exact (hcounts _ hn (by simpa using hone)).1 rfl hused
  · rintro ⟨hmany, hcounts⟩ c hc hone
    refine (useCount_invoke_child hnames hc hn).2 ⟨?_, hcounts c hc hone⟩
    rintro rfl hused
    rw [hmany hused] at hone
    cases hone

/-- An invocation of another keyword counts for no child. -/
theorem useCount_invoke_of_not_child {c : Keyword} {n : Invocation} (hc : c ∈ parent.children)
    (hn : n.keyword.isChildOf parent = false) : useCount c (.invoke n :: l) = useCount c l := by
  have hid : n.keyword.id ≠ c.id := by
    intro hid
    rw [Keyword.isChildOf_iff.2 ⟨c, hc, hid.symm⟩] at hn
    cases hn
  rw [useCount_invoke, if_neg hid, Nat.add_zero]

theorem Keyword.spares_invoke_of_not_child {n : Invocation}
    (hn : n.keyword.isChildOf parent = false) :
    parent.Spares used (.invoke n :: l) ↔ parent.Spares used l :=
  forall₂_congr fun c hc => by rw [useCount_invoke_of_not_child hc hn]

/-- At a child the check goes on with its name among the used ones. -/
theorem checkStatements_invoke_child {n : Invocation} (h : n.keyword.isChildOf parent = true) :
    checkStatements parent used (.invoke n :: l) = .ok used' ↔
      (n.keyword.name ∈ used → n.keyword.spec.use.allowsMany = true) ∧
        checkStatements parent (n.keyword.name :: used) l = .ok used' := by
  rw [checkStatements, if_pos h]
  split
  · rename_i htwice
    exact iff_of_false (by simp) fun hmany => htwice.2 (hmany.1 htwice.1)
  · rename_i htwice
    rw [not_and_not_right] at htwice
    exact (and_iff_right htwice).symm

/-- At another keyword, which must not be nested, the check goes on as it is. -/
theorem checkStatements_invoke_of_not_child {n : Invocation}
    (h : n.keyword.isChildOf parent = false) :
    checkStatements parent used (.invoke n :: l) = .ok used' ↔
      n.keyword.spec.nested = false ∧ checkStatements parent used l = .ok used' := by
  rw [checkStatements, if_neg (by simp [h])]
  cases n.keyword.spec.nested <;> simp

/-- The check passes if every invocation is in scope and none is a use too many. -/
theorem checkStatements_isOk_iff (hnames : (parent.children.map (·.name)).Nodup)
    (hplaces : parent.Agrees l) :
    (∃ used', checkStatements parent used l = .ok used') ↔
      (∀ n ∈ directInvocations l,
        n.keyword.spec.nested = false ∨ ∃ c ∈ parent.children, c.id = n.keyword.id) ∧
      parent.Spares used l := by
  induction l generalizing used with
  | nil => simp [checkStatements, directInvocations, Keyword.Spares, useCount]
  | cons s rest ih =>
    cases s with
    | assign target value span => exact ih hplaces
    | evaluate e span => exact ih hplaces
    | invoke n =>
      simp only [directInvocations, List.forall_mem_cons]
      cases hchild : n.keyword.isChildOf parent with
      | true =>
        have hmem := hplaces.mem_children hchild
        have hscope : n.keyword.spec.nested = false ∨
            ∃ c ∈ parent.children, c.id = n.keyword.id := .inr ⟨_, hmem, rfl⟩
        simp only [checkStatements_invoke_child hchild, exists_and_left, ih hplaces.of_invoke,
          Keyword.spares_invoke_child hnames hmem, hscope, true_and]
        exact and_left_comm
      | false =>
        have hscope : ¬ ∃ c ∈ parent.children, c.id = n.keyword.id := by
          rw [← Keyword.isChildOf_iff, hchild]
          simp
        simp only [checkStatements_invoke_of_not_child hchild, exists_and_left,
          ih hplaces.of_invoke, Keyword.spares_invoke_of_not_child hchild, hscope, or_false,
          and_assoc]

/-- After the check, the used names are those from before and those of the children invoked. -/
theorem mem_of_checkStatements (hnames : (parent.children.map (·.name)).Nodup)
    (hplaces : parent.Agrees l)
    (h : checkStatements parent used l = .ok used') {c : Keyword} (hc : c ∈ parent.children) :
    c.name ∈ used' ↔ c.name ∈ used ∨ 1 ≤ useCount c l := by
  induction l generalizing used with
  | nil =>
    obtain rfl := Except.ok.inj h
    simp [useCount, directInvocations]
  | cons s rest ih =>
    cases s with
    | assign target value span => exact ih hplaces h
    | evaluate e span => exact ih hplaces h
    | invoke n =>
      cases hchild : n.keyword.isChildOf parent with
      | true =>
        have hmem := hplaces.mem_children hchild
        rw [checkStatements_invoke_child hchild] at h
        rw [ih hplaces.of_invoke h.2, List.mem_cons, Keyword.name_eq_iff_id_eq hnames hc hmem,
          useCount_invoke]
        by_cases hid : n.keyword.id = c.id
        · simp [hid]
        · simp [hid]
      | false =>
        rw [checkStatements_invoke_of_not_child hchild] at h
        rw [ih hplaces.of_invoke h.2, useCount_invoke_of_not_child hc hchild]

/-- No required child is found missing if each is invoked. -/
theorem find?_missing_eq_none_iff (hnames : (parent.children.map (·.name)).Nodup)
    (hplaces : parent.Agrees l) (h : checkStatements parent [] l = .ok used') :
    (parent.spec.children.find? fun c => c.use.isRequired && !used'.contains c.name) = none ↔
      ∀ c ∈ parent.children, c.spec.use.isRequired = true → 1 ≤ useCount c l := by
  rw [← parent.map_spec_children, List.find?_map, Option.map_eq_none_iff, List.find?_eq_none]
  refine forall₂_congr fun c hc => ?_
  have hused : c.name ∈ used' ↔ 1 ≤ useCount c l := by
    rw [mem_of_checkStatements hnames hplaces h hc]
    simp
  simp only [Function.comp_apply, Bool.and_eq_true, Bool.not_eq_true', List.contains_eq_mem,
    decide_eq_false_iff_not, not_and, not_not, hused]

/-- The check of a block decides whether its parent admits it. -/
theorem checkNesting_eq_ok (hnames : (parent.children.map (·.name)).Nodup)
    (hplaces : parent.Agrees l) {span : Span} :
    checkNesting parent l span = .ok () ↔ parent.Admits l := by
  have hstatements : (∃ used', checkStatements parent [] l = .ok used') ↔ _ :=
    checkStatements_isOk_iff hnames hplaces
  simp only [Keyword.Spares, List.not_mem_nil, false_imp_iff, and_true,
    UseMode.allowsMany_eq_false] at hstatements
  unfold checkNesting
  rw [Success.bind_eq_ok]
  constructor
  · rintro ⟨used', hused, h⟩
    obtain ⟨hscope, honce⟩ := hstatements.1 ⟨used', hused⟩
    refine ⟨hscope, honce, ?_⟩
    simp only [← UseMode.isRequired_eq_true]
    rw [← find?_missing_eq_none_iff hnames hplaces hused]
    split at h
    · simp at h
    · assumption
  · rintro ⟨hscope, honce, hrequired⟩
    obtain ⟨used', hused⟩ := hstatements.2 ⟨hscope, honce⟩
    simp only [← UseMode.isRequired_eq_true] at hrequired
    refine ⟨used', hused, ?_⟩
    rw [(find?_missing_eq_none_iff hnames hplaces hused).2 hrequired]
    rfl

end Check

/-! ## Scripts -/

/-- Hooks of an invocation that neither raise nor report diagnostics. -/
structure RuntimeInfo.Quiet (r : RuntimeInfo) (n : Invocation) : Prop where
  preParse : r.hooks.contains .preParse = true → r.implementation.preParse n.keyword = .ok []
  postParse : r.hooks.contains .postParse = true → r.implementation.postParse n = .ok []
  semanticCheck : r.hooks.contains .semanticCheck = true →
    r.implementation.semanticCheck n = .ok []

section Scripts

variable (bindArgs : ArgumentBinder) (bindings : Bindings)

/-- An invocation that passes the checks that do not look at the statements of a block. -/
structure Invocation.PassesAlone (n : Invocation) : Prop where
  bound : ∃ runtime, bindings.runtime? n.keyword = some runtime ∧ runtime.Quiet n
  arguments : ∃ bound, bindArgs n.keyword.spec n.elements n.span = .ok bound
  body : n.bodyFits = true
  properties : n.keyword.spec.body = .hashtable →
    ∃ plans, planProperties n.keyword.spec n.entries n.span = .ok plans

end Scripts

section Scripts

variable {bindArgs : ArgumentBinder} {bindings : Bindings}

theorem succeeds_compileStatements_nil : (compileStatements bindArgs bindings []).Succeeds := by
  rw [compileStatements]
  exact Compiled.succeeds_pure []

/-- The body of an invocation that passes alone compiles if its block is admitted and compiles. -/
theorem succeeds_compileBody {n : Invocation} {runtime : RuntimeInfo} {instantiate : Instruction}
    (hnames : (n.keyword.children.map (·.name)).Nodup) (hplaces : n.keyword.Agrees n.block)
    (hbody : n.bodyFits = true) (hproperties : n.keyword.spec.body = .hashtable →
      ∃ plans, planProperties n.keyword.spec n.entries n.span = .ok plans) :
    (n.compileBody bindArgs bindings runtime instantiate).Succeeds ↔
      (n.keyword.spec.body = .scriptBlock → n.keyword.Admits n.block) ∧
        (compileStatements bindArgs bindings n.block).Succeeds := by
  obtain ⟨hmode, hbody⟩ | ⟨hmode, hbody⟩ | ⟨hmode, span, hbody⟩ := Invocation.bodyFits_iff.1 hbody
  · have hblock : n.block = [] := by simp [Invocation.block, hbody]
    rw [compileBody_of_command _ _ hmode hbody, hblock]
    simp [hmode, succeeds_compileStatements_nil]
  · have hblock : n.block = [] := by simp [Invocation.block, hbody]
    rw [compileBody_of_hashtable _ _ hmode hbody, hblock,
      Compiled.succeeds_bind_of_forall (fun _ => Compiled.succeeds_pure _),
      Compiled.succeeds_ofCheck]
    simp [hmode, hproperties hmode, succeeds_compileStatements_nil]
  · rw [compileBody_of_scriptBlock _ _ hmode hbody, Compiled.succeeds_bind]
    simp only [Compiled.ofCheck_eq_ok, checkNesting_eq_ok hnames hplaces, exists_const,
      Compiled.succeeds_bind_of_forall fun _ => Compiled.succeeds_pure _, hmode, true_imp_iff]

/-- An invocation that passes alone compiles if its block is admitted and compiles. -/
theorem succeeds_compileInvocation {n : Invocation} (h : n.PassesAlone bindArgs bindings)
    (hnames : (n.keyword.children.map (·.name)).Nodup) (hplaces : n.keyword.Agrees n.block) :
    (compileInvocation bindArgs bindings n).Succeeds ↔
      (n.keyword.spec.body = .scriptBlock → n.keyword.Admits n.block) ∧
        (compileStatements bindArgs bindings n.block).Succeeds := by
  obtain ⟨runtime, hruntime, hquiet⟩ := h.bound
  obtain ⟨bound, hbound⟩ := h.arguments
  have hpre : (runtime.runPreParse n).result = .ok () :=
    RuntimeInfo.runPreParse_eq_ok.2 hquiet.preParse
  have hpost : (runtime.runPostParse n).result = .ok () :=
    RuntimeInfo.runPostParse_eq_ok.2 hquiet.postParse
  have hcheck : (runtime.runSemanticCheck n).Succeeds :=
    ⟨(), RuntimeInfo.runSemanticCheck_eq_ok.2 hquiet.semanticCheck⟩
  have hfollowing (code : Fragment) :
      (do runtime.runSemanticCheck n; return code : Compiled Fragment).Succeeds :=
    (Compiled.succeeds_bind_of_forall fun _ => Compiled.succeeds_pure _).2 hcheck
  rw [compileInvocation_eq bindArgs bindings hruntime]
  simp only [Compiled.succeeds_bind, hpre, hpost, Compiled.ofCheck_eq_ok, hbound,
    Except.ok.injEq, exists_eq_left', true_and, exists_const]
  simp only [← Compiled.succeeds_bind, Compiled.succeeds_bind_of_forall hfollowing]
  exact succeeds_compileBody hnames hplaces h.body h.properties

theorem succeeds_compileStatements_cons {s : Statement} {rest : List Statement} :
    (compileStatements bindArgs bindings (s :: rest)).Succeeds ↔
      (compileStatement bindArgs bindings s).Succeeds ∧
        (compileStatements bindArgs bindings rest).Succeeds := by
  rw [compileStatements_cons, Compiled.succeeds_append]

theorem succeeds_compileStatement_invoke {n : Invocation} :
    (compileStatement bindArgs bindings (.invoke n)).Succeeds ↔
      (compileInvocation bindArgs bindings n).Succeeds := by
  rw [compileStatement]

end Scripts

/-! ### Discovered keywords -/

theorem mem_reachedInvocations_of_direct {l : List Statement} {n : Invocation}
    (h : n ∈ directInvocations l) : n ∈ reachedInvocations l := by
  induction l with
  | nil => cases h
  | cons s rest ih =>
    cases s with
    | assign target value span =>
      rw [reachedInvocations_assign]
      exact ih h
    | evaluate e span =>
      rw [reachedInvocations_evaluate]
      exact ih h
    | invoke m =>
      rw [reachedInvocations_invoke]
      obtain rfl | h := List.mem_cons.1 h
      · exact List.mem_cons_self
      · exact List.mem_cons_of_mem _ (List.mem_append_right _ (ih h))

/-- Among discovered keywords, a place determines its keyword. -/
theorem Discoveries.Give.agrees {ms : Discoveries} {k : Keyword} (h : ms.Give k)
    {l : List Statement} (hl : ∀ n ∈ directInvocations l, ms.Give n.keyword) : k.Agrees l :=
  fun n hn _ hc hid => (h.of_mem_children hc).eq_of_id_eq (hl n hn) hid

section Scripts

variable {bindArgs : ArgumentBinder} {bindings : Bindings} {ms : Discoveries}

/-- Statements whose invocations pass alone compile if every block below them is admitted. -/
theorem succeeds_compileStatements {l : List Statement}
    (hgiven : ∀ n ∈ reachedInvocations l, ms.Give n.keyword)
    (halone : ∀ n ∈ reachedInvocations l, n.PassesAlone bindArgs bindings) :
    (compileStatements bindArgs bindings l).Succeeds ↔
      ∀ n ∈ reachedInvocations l, n.keyword.spec.body = .scriptBlock → n.keyword.Admits n.block := by
  induction l using statements_induction with
  | nil => simpa using succeeds_compileStatements_nil
  | assign target value span rest ih =>
    rw [reachedInvocations_assign] at hgiven halone ⊢
    rw [succeeds_compileStatements_cons, compileStatement, ih hgiven halone]
    exact and_iff_right (Compiled.succeeds_pure _)
  | evaluate e span rest ih =>
    rw [reachedInvocations_evaluate] at hgiven halone ⊢
    rw [succeeds_compileStatements_cons, compileStatement, ih hgiven halone]
    exact and_iff_right (Compiled.succeeds_pure _)
  | invoke n rest ihblock ih =>
    rw [reachedInvocations_invoke] at hgiven halone ⊢
    simp only [List.forall_mem_cons, List.forall_mem_append] at hgiven halone ⊢
    obtain ⟨hn, hblock, hrest⟩ := hgiven
    obtain ⟨pn, pblock, prest⟩ := halone
    have hnames := nodup_childNames_of_discovered hn.discovered
    have hplaces := hn.agrees fun m hm => hblock m (mem_reachedInvocations_of_direct hm)
    rw [succeeds_compileStatements_cons, succeeds_compileStatement_invoke,
      succeeds_compileInvocation pn hnames hplaces, ihblock hblock pblock, ih hrest prest, and_assoc]

theorem succeeds_compileTopStatement {s : Statement} :
    (compileTopStatement bindArgs bindings s).Succeeds ↔
      (∀ n ∈ directInvocations [s], n.keyword.spec.nested = false) ∧
        (compileStatement bindArgs bindings s).Succeeds := by
  cases s with
  | assign target value span => simp [compileTopStatement, directInvocations]
  | evaluate e span => simp [compileTopStatement, directInvocations]
  | invoke n =>
    rw [succeeds_compileStatement_invoke]
    unfold compileTopStatement
    cases hnested : n.keyword.spec.nested with
    | true => simp [directInvocations, hnested, Compiled.Succeeds, Compiled.reject]
    | false => simp [directInvocations, hnested]

theorem directInvocations_cons (s : Statement) (rest : List Statement) :
    directInvocations (s :: rest) = directInvocations [s] ++ directInvocations rest := by
  cases s <;> rfl

/-- A script compiles if its statements do and no nested keyword stands at the top. -/
theorem succeeds_compileScript {script : List Statement} :
    (compileScript bindArgs bindings script).Succeeds ↔
      (∀ n ∈ directInvocations script, n.keyword.spec.nested = false) ∧
        (compileStatements bindArgs bindings script).Succeeds := by
  induction script with
  | nil => simp [compileScript, compileStatements, directInvocations]
  | cons s rest ih =>
    rw [compileScript_cons, Compiled.succeeds_append, succeeds_compileTopStatement, ih,
      succeeds_compileStatements_cons, directInvocations_cons s rest, List.forall_mem_append,
      and_and_and_comm]

/-! ### A sample -/

namespace Letter

/-- The code behind the keywords, without hooks. -/
def code : Bindings :=
  ⟨[(letter.id, .of ⟨"Letter", fun _ => none, .empty, {}⟩),
    (address.id, .of ⟨"Address", fun _ => none, .empty, {}⟩)]⟩

/-- A number of addresses. -/
def addresses (count : Nat) : List Statement :=
  List.replicate count (.invoke ⟨address, [], none, .ofLine 2⟩)

/-- A letter with a number of addresses. -/
def script (count : Nat) : List Statement :=
  [.invoke ⟨letter, [], some (.scriptBlock (addresses count) (.ofLine 1)), .ofLine 1⟩]

theorem passesAlone_letter (count : Nat) : Invocation.PassesAlone bindArguments code
    ⟨letter, [], some (.scriptBlock (addresses count) (.ofLine 1)), .ofLine 1⟩ where
  bound := ⟨_, rfl, by constructor <;> simp [RuntimeInfo.of, HookSet.empty]⟩
  arguments := ⟨⟨allSets, []⟩, by with_unfolding_all rfl⟩
  body := rfl
  properties h := by cases h

theorem passesAlone_address : Invocation.PassesAlone bindArguments code
    ⟨address, [], none, .ofLine 2⟩ where
  bound := ⟨_, rfl, by constructor <;> simp [RuntimeInfo.of, HookSet.empty]⟩
  arguments := ⟨⟨allSets, []⟩, by with_unfolding_all rfl⟩
  body := rfl
  properties h := by cases h

theorem useCount_addresses (count : Nat) : useCount address (addresses count) = count := by
  induction count with
  | zero => rfl
  | succ count ih => simpa [addresses, List.replicate_succ, useCount_invoke] using ih

theorem mem_directInvocations_addresses {n : Invocation} {count : Nat}
    (h : n ∈ directInvocations (addresses count)) : n.keyword = address := by
  induction count with
  | zero => cases h
  | succ count ih =>
    obtain rfl | h := List.mem_cons.1 h
    · rfl
    · exact ih h

theorem admits_addresses {count : Nat} : letter.Admits (addresses count) ↔ count = 1 := by
  constructor
  · intro h
    have hmost := h.atMostOnce address (by simp [children_letter]) (.inr rfl)
    have hleast := h.atLeastOnce address (by simp [children_letter]) (.inl rfl)
    rw [useCount_addresses] at hmost hleast
    omega
  · rintro rfl
    have hcount := useCount_addresses 1
    constructor <;> simp [children_letter, hcount]
    intro n hn
    rw [mem_directInvocations_addresses hn]
    exact .inr rfl

theorem forall_reached_script {P : Invocation → Prop} {count : Nat}
    (letter : P ⟨letter, [], some (.scriptBlock (addresses count) (.ofLine 1)), .ofLine 1⟩)
    (address : P ⟨address, [], none, .ofLine 2⟩) : ∀ n ∈ reachedInvocations (script count), P n := by
  have haddresses (count : Nat) : ∀ n ∈ reachedInvocations (addresses count), P n := by
    induction count with
    | zero => simp [addresses]
    | succ count ih => simpa [addresses, List.replicate_succ, Invocation.block] using ⟨address, ih⟩
  simpa [script, Invocation.block] using ⟨letter, haddresses count⟩

end Letter

/-- A script of discovered keywords whose invocations pass the checks that look at each alone
compiles exactly if no nested keyword stands outside every block and every block holds what its
keyword admits. -/
theorem compileScript_isOk_iff_admits {script : List Statement}
    (hgiven : ∀ n ∈ reachedInvocations script, ms.Give n.keyword)
    (halone : ∀ n ∈ reachedInvocations script, n.PassesAlone bindArgs bindings) :
    (∃ f, (compileScript bindArgs bindings script).result = .ok f) ↔
      (∀ n ∈ directInvocations script, n.keyword.spec.nested = false) ∧
        ∀ n ∈ reachedInvocations script, n.keyword.spec.body = .scriptBlock →
          n.keyword.Admits n.block := by
  rw [← succeeds_compileStatements hgiven halone]
  exact succeeds_compileScript

/-- A letter with one address compiles, and one with two does not. -/
theorem compileScript_isOk_iff_admits_letter :
    (∃ f, (compileScript bindArguments Letter.code (Letter.script 1)).result = .ok f) ∧
      ¬ ∃ f, (compileScript bindArguments Letter.code (Letter.script 2)).result = .ok f := by
  have hgiven (count : Nat) : ∀ n ∈ reachedInvocations (Letter.script count),
      Discoveries.Give (fun _ => Letter.metadata) n.keyword :=
    Letter.forall_reached_script Letter.give_letter Letter.give_address
  have halone (count : Nat) : ∀ n ∈ reachedInvocations (Letter.script count),
      n.PassesAlone bindArguments Letter.code :=
    Letter.forall_reached_script (Letter.passesAlone_letter count) Letter.passesAlone_address
  constructor
  · refine (compileScript_isOk_iff_admits (hgiven 1) (halone 1)).2 ⟨?_, ?_⟩
    · simp [Letter.script, directInvocations, Letter.letter]
    · exact Letter.forall_reached_script (fun _ => Letter.admits_addresses.2 rfl) fun h => by cases h
  · rw [compileScript_isOk_iff_admits (hgiven 2) (halone 2)]
    rintro ⟨-, hadmits⟩
    have htwo := hadmits _ (by rw [Letter.script, reachedInvocations_invoke]; exact .head _) rfl
    exact absurd (Letter.admits_addresses.1 htwo) (by decide)

end Scripts

end KeywordEngine
