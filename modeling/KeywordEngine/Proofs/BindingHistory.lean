import KeywordEngine.Proofs.Resolution
import Mathlib.Logic.Function.Basic

/-!
# Bindings over a history of requests

Binders serve requests one after the other. Whatever is asked for, each tree of keywords stays without
code until a request that names it succeeds, and has from then on the code that this request resolved
for it.

* `BindState.serve`: one request, with any of the binders and with a loader of its own.
* `Bindings.Binds`: a tree that has its code, that of a root being given.
* `BindState.binds_serve`, `BindState.unbound_serve`: what one request does to a tree without code.
* `BindState.firstSuccess?`: the request that a tree has its code from.
* `BindState.bindings_serveAll`: the bindings after any requests.
-/

namespace KeywordEngine

/-! ## Attaching -/

theorem Commit.find?_add (c : Commit) (a : Attachment) (id : KeywordId) :
    (c.add a).bindings.find? id =
      if a.id = id then c.bindings.find? id <|> some (.of a.implementation)
      else c.bindings.find? id := by
  unfold add
  split
  · rename_i h
    obtain ⟨r, hr⟩ := Option.isSome_iff_exists.1 h
    split
    · rename_i hid
      rw [← hid, hr]
      rfl
    · rfl
  · rw [Bindings.find?_attach]
    split
    · rename_i hid
      rw [hid]
    · rfl

/-- A keyword keeps its code, and gets that of its first attachment if it has none. -/
theorem Bindings.runtime?_commit (b : Bindings) (attachments : List Attachment) (k : Keyword) :
    (b.commit attachments).bindings.runtime? k =
      (b.runtime? k <|> (attachments.find? (·.id == k.id)).map fun a => .of a.implementation) := by
  have hfold (c : Commit) : (attachments.foldl Commit.add c).bindings.find? k.id =
      (c.bindings.find? k.id <|> (attachments.find? (·.id == k.id)).map fun a =>
        .of a.implementation) := by
    induction attachments generalizing c with
    | nil => simp
    | cons a rest ih =>
      rw [List.foldl_cons, ih, c.find?_add]
      by_cases hid : a.id = k.id
      · cases c.bindings.find? k.id <;> simp [hid]
      · simp [hid]
  exact hfold ⟨b, 0, []⟩

/-! ## Bound trees -/

/-- No keyword in the tree of `root` has code. -/
def Bindings.Unbound (b : Bindings) (root : Keyword) : Prop :=
  ∀ k, root.Within k → b.runtime? k = none

/-- The tree of `root` has its code: `t` for `root` itself, and for a nested keyword what the code
around it declares under its name. The attached hooks are those that the code declares. -/
structure Bindings.Binds (b : Bindings) (root : Keyword) (t : Implementation) : Prop where
  top : b.runtime? root = some (.of t)
  bound : ∀ k, root.Within k → ∃ u, b.runtime? k = some (.of u)
  nested : ∀ parent u, root.Within parent → b.runtime? parent = some (.of u) →
    ∀ k ∈ parent.children, ∃ v, u.nested? k.name = some v ∧ b.runtime? k = some (.of v)

namespace Bindings.Binds

variable {b b' : Bindings} {root : Keyword} {t : Implementation}

theorem of_resolves (h : ∀ k, root.Within k → ∃ u, Resolves root t k u ∧
    b.runtime? k = some (.of u)) : b.Binds root t where
  top := by
    obtain ⟨u, hu, hbound⟩ := h root .self
    rw [hbound, hu.eq_of_id_eq .self rfl]
  bound k hk := by
    obtain ⟨u, -, hbound⟩ := h k hk
    exact ⟨u, hbound⟩
  nested parent u hparent hbound k hk := by
    obtain ⟨u', hu, hbound'⟩ := h parent hparent
    obtain ⟨v, hv, hboundv⟩ := h k (.nested hparent hk)
    obtain rfl : u = u' := congrArg (·.implementation) (Option.some.inj (hbound.symm.trans hbound'))
    exact ⟨v, hv.nested?_of_mem_children hu hk, hboundv⟩

/-- A bound tree stays bound to the same code where attached code stays. -/
theorem mono (h : b.Binds root t)
    (hmono : ∀ (k : Keyword) r, b.runtime? k = some r → b'.runtime? k = some r) :
    b'.Binds root t where
  top := hmono root _ h.top
  bound k hk := by
    obtain ⟨u, hbound⟩ := h.bound k hk
    exact ⟨u, hmono k _ hbound⟩
  nested parent u hparent hbound k hk := by
    obtain ⟨u', hbound'⟩ := h.bound parent hparent
    have heq := hbound.symm.trans (hmono parent _ hbound')
    obtain rfl : u = u' := congrArg (·.implementation) (Option.some.inj heq)
    obtain ⟨v, hv, hboundv⟩ := h.nested parent u hparent hbound' k hk
    exact ⟨v, hv, hmono k _ hboundv⟩

end Bindings.Binds

/-! ## Requests -/

/-- A request to bind keywords. -/
structure BindRequest where
  /-- The binder that serves the request. -/
  binder : Nat
  load : ModuleLoader
  keywords : List Keyword

/-- Whether a request names a keyword. -/
def BindRequest.names (r : BindRequest) (root : Keyword) : Bool :=
  r.keywords.any (·.id == root.id)

/-- Binders, each with what it has loaded, and the code attached so far. -/
structure BindState where
  binders : Nat → Binder
  bindings : Bindings

namespace BindState

/-- Nothing is attached; the binders may have loaded anything. -/
def start (binders : Nat → Binder) : BindState := ⟨binders, .empty⟩

/-- What a request comes to. -/
def report (s : BindState) (r : BindRequest) : BindReport :=
  (s.binders r.binder).bind s.bindings r.load r.keywords

/-- The state after a request. -/
def serve (s : BindState) (r : BindRequest) : BindState :=
  ⟨Function.update s.binders r.binder (s.report r).binder, (s.report r).bindings⟩

/-- The state after requests. -/
def serveAll (s : BindState) (requests : List BindRequest) : BindState := requests.foldl serve s

/-- Whether a request names `root` and succeeds. -/
def succeedsFor (s : BindState) (root : Keyword) (r : BindRequest) : Bool :=
  r.names root && (s.report r).result.isOk

/-- The first request that names `root` and succeeds, with the state that it meets. -/
def firstSuccess? (root : Keyword) (s : BindState) :
    List BindRequest → Option (BindState × BindRequest)
  | [] => none
  | r :: rest =>
    if s.succeedsFor root r then some (s, r) else firstSuccess? root (s.serve r) rest

variable {s : BindState} {r : BindRequest}

/-! ### One request -/

/-- A request that fails attaches nothing. -/
theorem bindings_serve_of_error {e : BindingError} (h : (s.report r).result = .error e) :
    (s.serve r).bindings = s.bindings := by
  unfold serve
  unfold report Binder.bind at *
  simp only at h ⊢
  split at h
  · cases h
  · rfl

/-- A request that succeeds attaches what covers the trees it names. -/
theorem covers_of_report {commit : Commit} (h : (s.report r).result = .ok commit) :
    ∃ attachments, (∀ k ∈ r.keywords, k.spec.nested = false) ∧
      Covers (fun k => ((s.binders r.binder).usedModule? r.load r.keywords k.spec.module.id).bind
        (·.resolve? k.name)) r.keywords attachments ∧
      (s.serve r).bindings = (s.bindings.commit attachments).bindings := by
  unfold serve
  unfold report Binder.bind at *
  simp only at h ⊢
  split at h
  · rename_i attachments hresult
    obtain ⟨hroots, hcovers⟩ := covers_of_resolve hresult
    exact ⟨attachments, hroots, hcovers, rfl⟩
  · cases h

/-- What is attached stays as it is. -/
theorem runtime?_serve {k : Keyword} {x : RuntimeInfo} (h : s.bindings.runtime? k = some x) :
    (s.serve r).bindings.runtime? k = some x := by
  cases hresult : (s.report r).result with
  | error e => rw [bindings_serve_of_error hresult, h]
  | ok commit =>
    obtain ⟨attachments, -, -, hbindings⟩ := covers_of_report hresult
    rw [hbindings, Bindings.runtime?_commit, h]
    rfl

/-- A request that succeeds leaves no keyword in its trees without code. -/
theorem isSome_runtime?_serve {commit : Commit} (h : (s.report r).result = .ok commit)
    {root k : Keyword} (hroot : root ∈ r.keywords) (hk : root.Within k) :
    ((s.serve r).bindings.runtime? k).isSome = true := by
  obtain ⟨attachments, -, hcovers, hbindings⟩ := covers_of_report h
  obtain ⟨first, -, hfirst, -⟩ := hcovers.exists_find? hroot hk
  rw [hbindings, Bindings.runtime?_commit, hfirst]
  cases s.bindings.runtime? k <;> rfl

section Given

variable {ms : Discoveries} {root : Keyword}

/-- A request that names the place of a top keyword names that keyword. -/
theorem mem_of_names (hgiven : ∀ k ∈ r.keywords, ms.GiveTop k) (hroot : ms.GiveTop root)
    (h : r.names root = true) : root ∈ r.keywords := by
  obtain ⟨k, hk, hid⟩ := List.any_eq_true.1 h
  have heq := (hgiven k hk).eq_of_within hroot .self .self (by simpa using hid)
  rwa [← heq]

/-- What a successful request attaches in a tree is what it resolves there. -/
theorem resolves_of_mem_attachments {resolve? : Keyword → Option Implementation}
    {keywords : List Keyword} {attachments : List Attachment}
    (hcovers : Covers resolve? keywords attachments) (hgiven : ∀ k ∈ keywords, ms.GiveTop k)
    (hroot : ms.GiveTop root) {k : Keyword} (hk : root.Within k) {a : Attachment}
    (ha : a ∈ attachments) (hid : a.id = k.id) :
    root ∈ keywords ∧ ∃ t, resolve? root = some t ∧ Resolves root t k a.implementation := by
  obtain ⟨root', hroot', t, k', ht, hresolves, hid'⟩ := hcovers.sound a ha
  have hplace : k'.id = k.id := hid'.symm.trans hid
  obtain rfl := (hgiven root' hroot').eq_of_within hroot hresolves.within hk hplace
  obtain rfl := hresolves.within.eq_of_id_eq hk hplace
  exact ⟨hroot', t, ht, hresolves⟩

theorem giveTop_of_mem {commit : Commit} (h : (s.report r).result = .ok commit)
    (hgiven : ∀ k ∈ r.keywords, ms.Give k) : ∀ k ∈ r.keywords, ms.GiveTop k := by
  obtain ⟨attachments, hroots, -⟩ := covers_of_report h
  exact fun k hk => (hgiven k hk).top (hroots k hk)

/-- A tree without code stays without where a request fails or does not name it. -/
theorem unbound_serve (hgiven : ∀ k ∈ r.keywords, ms.Give k) (hroot : ms.GiveTop root)
    (hfor : s.succeedsFor root r = false) (hunbound : s.bindings.Unbound root) :
    (s.serve r).bindings.Unbound root := by
  intro k hk
  cases hresult : (s.report r).result with
  | error e => rw [bindings_serve_of_error hresult, hunbound k hk]
  | ok commit =>
    obtain ⟨attachments, -, hcovers, hbindings⟩ := covers_of_report hresult
    have hfound : attachments.find? (·.id == k.id) = none := by
      rw [List.find?_eq_none]
      intro a ha hid
      obtain ⟨hnamed, -⟩ := resolves_of_mem_attachments hcovers (giveTop_of_mem hresult hgiven) hroot
        hk ha (by simpa using hid)
      have hnames : r.names root = true := List.any_eq_true.2 ⟨root, hnamed, by simp⟩
      simp [succeedsFor, hnames, hresult, Except.isOk, Except.toBool] at hfor
    rw [hbindings, Bindings.runtime?_commit, hunbound k hk, hfound]
    rfl

/-- A tree without code gets what a successful request that names it resolves. -/
theorem binds_serve (hgiven : ∀ k ∈ r.keywords, ms.Give k) (hroot : ms.GiveTop root)
    (hfor : s.succeedsFor root r = true) (hunbound : s.bindings.Unbound root) :
    ∃ loaded t, (s.binders r.binder).usedModule? r.load r.keywords root.spec.module.id =
      some loaded ∧ loaded.resolve? root.name = some t ∧ (s.serve r).bindings.Binds root t := by
  obtain ⟨hnames, hok⟩ := Bool.and_eq_true_iff.1 hfor
  cases hresult : (s.report r).result with
  | error e =>
    rw [hresult] at hok
    cases hok
  | ok commit =>
    have htop := giveTop_of_mem hresult hgiven
    have hnamed := mem_of_names htop hroot hnames
    obtain ⟨attachments, -, hcovers, hbindings⟩ := covers_of_report hresult
    obtain ⟨t, ht, -⟩ := hcovers.complete root hnamed
    obtain ⟨loaded, hloaded, hresolved⟩ := Option.bind_eq_some_iff.1 ht
    refine ⟨loaded, t, hloaded, hresolved, .of_resolves fun k hk => ?_⟩
    obtain ⟨first, hmem, hfirst, hid⟩ := hcovers.exists_find? hnamed hk
    obtain ⟨-, t', ht', hu⟩ := resolves_of_mem_attachments hcovers htop hroot hk hmem hid
    obtain rfl := Option.some.inj (ht.symm.trans ht')
    refine ⟨first.implementation, hu, ?_⟩
    rw [hbindings, Bindings.runtime?_commit, hunbound k hk, hfirst]
    rfl

end Given

/-! ### Histories -/

/-- What is attached stays as it is, whatever is asked for later. -/
theorem runtime?_serveAll (s : BindState) {requests : List BindRequest} {k : Keyword}
    {x : RuntimeInfo} (h : s.bindings.runtime? k = some x) :
    (s.serveAll requests).bindings.runtime? k = some x := by
  induction requests generalizing s with
  | nil => exact h
  | cons r rest ih => exact ih (s.serve r) (runtime?_serve h)

/-- A tree without code has the code of the first request that names it and succeeds, if there is
one, and none otherwise. -/
theorem binds_of_firstSuccess? {ms : Discoveries} {root : Keyword} {requests : List BindRequest}
    (hgiven : ∀ r ∈ requests, ∀ k ∈ r.keywords, ms.Give k) (hroot : ms.GiveTop root)
    (hunbound : s.bindings.Unbound root) :
    match s.firstSuccess? root requests with
    | none => (s.serveAll requests).bindings.Unbound root
    | some (before, r) => ∃ loaded t,
      (before.binders r.binder).usedModule? r.load r.keywords root.spec.module.id = some loaded ∧
        loaded.resolve? root.name = some t ∧ (s.serveAll requests).bindings.Binds root t := by
  induction requests generalizing s with
  | nil => exact hunbound
  | cons r rest ih =>
    rw [List.forall_mem_cons] at hgiven
    unfold firstSuccess?
    cases hfor : s.succeedsFor root r with
    | true =>
      obtain ⟨loaded, t, hloaded, ht, hbinds⟩ := binds_serve hgiven.1 hroot hfor hunbound
      exact ⟨loaded, t, hloaded, ht, hbinds.mono fun k x hx => runtime?_serveAll (s.serve r) hx⟩
    | false => exact ih hgiven.2 (unbound_serve hgiven.1 hroot hfor hunbound)

end BindState

/-! ### A sample -/

namespace Letter

/-- The code of letters, with that of their addresses. -/
def letterCode : Implementation where
  typeName := "Letter"
  nested? name := if name = "Address" then some ⟨"Address", fun _ => none, .empty, {}⟩ else none
  hooks := .ofList [.enterScope]
  behavior := {}

/-- The module with the code of letters. -/
def letters : LoadedModule :=
  ⟨metadata.module, fun name => if name = "Letter" then some letterCode else none⟩

/-- A request whose loader refuses. -/
def refused : BindRequest := ⟨0, fun m => .error (.moduleLoad m.text "not there"), [letter]⟩

/-- A request that names a letter twice. -/
def granted : BindRequest := ⟨1, fun _ => .ok letters, [letter, letter]⟩

end Letter

namespace BindState

/-- After any requests, each tree of discovered keywords has no code at all, or all of it has the
code that the first successful request naming it took from the module it used. Of one more request,
one that fails changes nothing and one that succeeds leaves none of its trees without code. What is
attached stays as it is, whatever is asked for later. -/
theorem bindings_serveAll {ms : Discoveries} (binders : Nat → Binder) {requests : List BindRequest}
    (hgiven : ∀ r ∈ requests, ∀ k ∈ r.keywords, ms.Give k) :
    let s := (start binders).serveAll requests
    (∀ root, ms.GiveTop root →
      match (start binders).firstSuccess? root requests with
      | none => s.bindings.Unbound root
      | some (before, r) => ∃ loaded t,
        (before.binders r.binder).usedModule? r.load r.keywords root.spec.module.id = some loaded ∧
          loaded.resolve? root.name = some t ∧ s.bindings.Binds root t) ∧
      (∀ r, match (s.report r).result with
        | .error _ => (s.serve r).bindings = s.bindings
        | .ok _ => ∀ root ∈ r.keywords, ∀ k, root.Within k →
          ((s.serve r).bindings.runtime? k).isSome = true) ∧
      ∀ later k x, s.bindings.runtime? k = some x →
        (s.serveAll later).bindings.runtime? k = some x := by
  intro s
  refine ⟨fun root hroot => ?_, fun r => ?_, fun later k x => runtime?_serveAll s⟩
  · exact binds_of_firstSuccess? hgiven hroot fun k _ => rfl
  · split
    · rename_i hresult
      exact bindings_serve_of_error hresult
    · rename_i hresult
      exact fun root hroot k hk => isSome_runtime?_serve hresult hroot hk

/-- Letters have the code of the second request after one that failed. -/
theorem bindings_serveAll_letter :
    ((start fun _ => .empty).serveAll [Letter.refused, Letter.granted]).bindings.Binds Letter.letter
      Letter.letterCode := by
  have hgiven : ∀ r ∈ [Letter.refused, Letter.granted], ∀ k ∈ r.keywords,
      Discoveries.Give (fun _ => Letter.metadata) k := by
    simp [Letter.refused, Letter.granted, Letter.give_letter]
  obtain ⟨htrees, -, -⟩ := bindings_serveAll (fun _ => .empty) hgiven
  have hletter := htrees Letter.letter (Letter.give_letter.top rfl)
  have hrefused : (start fun _ => .empty).succeedsFor Letter.letter Letter.refused = false := by
    decide +kernel
  have hgranted : ((start fun _ => .empty).serve Letter.refused).succeedsFor Letter.letter
      Letter.granted = true := by
    decide +kernel
  simp only [firstSuccess?, hrefused, hgranted, if_true, Bool.false_eq_true, if_false] at hletter
  obtain ⟨loaded, t, hloaded, ht, hbinds⟩ := hletter
  obtain rfl : Letter.letters = loaded := Option.some.inj hloaded
  obtain rfl : Letter.letterCode = t := Option.some.inj ht
  exact hbinds

end BindState

end KeywordEngine
