import KeywordEngine.CommandLine
import KeywordEngine.Proofs.Failure
import KeywordEngine.Proofs.StoreHistory
import Mathlib.Data.List.Nodup

/-!
# Modules are listed apart from each other

The listing of a store is made of the listings of its modules, each asked for by its name in any
case. What a run shows of a module is read from what the store loads for it and from nothing else.

* `MetadataStore.UniqueNames`: the store can tell the names of its modules apart. Every change keeps
  it so.
* `CommandLine.listAll`, `CommandLine.listOne`: the two kinds of runs, with what each prints and how
  it ends (`listAll_of_ok`, `listOne_of_ok`).
* `CommandLine.ListsApart`: what the runs have to do with each other.
-/

namespace KeywordEngine

open Store

/-! ## Names in a store -/

namespace MetadataStore

/-- No two stored modules have names that the store cannot tell apart. -/
def UniqueNames (s : MetadataStore) : Prop := (s.modules.map (·.nameKey)).Nodup

namespace UniqueNames

variable {s : MetadataStore}

theorem empty : UniqueNames .empty := List.nodup_nil

private theorem append (h : s.UniqueNames) {p : StoredModule → Bool} (row : StoredModule)
    (hnew : ∀ old ∈ s.modules, p old = true → old.nameKey ≠ row.nameKey) :
    ((s.modules.filter p ++ [row]).map (·.nameKey)).Nodup := by
  rw [List.map_append, List.map_singleton, List.nodup_append]
  refine ⟨h.sublist (List.filter_sublist.map _), List.nodup_singleton _, ?_⟩
  intro key hkey key' hkey'
  obtain ⟨old, hold, rfl⟩ := List.mem_map.1 hkey
  obtain rfl := List.mem_singleton.1 hkey'
  exact hnew old (List.mem_filter.1 hold).1 (List.mem_filter.1 hold).2

theorem write (h : s.UniqueNames) (m : ModuleMetadata) : (s.write m).UniqueNames := by
  refine h.append (encodeModule m) fun old _ hkept hkey => ?_
  have hname : old.nameKey = .ofName m.module.name := hkey
  simp [conflicts, hname] at hkept

theorem delete (h : s.UniqueNames) (id : ModuleId) : (s.delete id).UniqueNames :=
  h.sublist (List.filter_sublist.map _)

theorem addRow (h : s.UniqueNames) {idText name version : String} {s' : MetadataStore}
    (hadded : s.addRow idText name version = .ok s') : s'.UniqueNames := by
  unfold MetadataStore.addRow at hadded
  split at hadded
  · cases hadded
  · rename_i hfree
    obtain rfl := Except.ok.inj hadded
    have hrows := h.append (p := fun _ => true) ⟨idText, name, version, []⟩
      fun old hold _ hkey => hfree (List.any_eq_true.2 ⟨old, hold, ?_⟩)
    · rwa [List.filter_eq_self.2 fun _ _ => rfl] at hrows
    · have hname : old.nameKey = .ofName name := hkey
      simp [conflicts, hname]

/-- A stored module is found by its name in any case. -/
theorem find?_eq (h : s.UniqueNames) {row : StoredModule} (hrow : row ∈ s.modules) {name : String}
    (hname : Text.sameName name row.name = true) : s.find? name = (decodeRef row).map some := by
  have hfound : s.modules.find? (·.nameKey == .ofName name) = some row := by
    refine (find?_eq_some_iff_of_unique fun a ha b hb hkeya hkeyb => ?_).2 ⟨hrow, ?_⟩
    · rw [beq_iff_eq] at hkeya hkeyb
      exact List.inj_on_of_nodup_map h ha hb (hkeya.trans hkeyb.symm)
    · rw [NameKey.ofName_eq_of_sameName hname]
      exact beq_self_eq_true _
  rw [MetadataStore.find?, hfound]
  rfl

end UniqueNames

end MetadataStore

/-! ## One module -/

namespace Listing

variable (s : MetadataStore) (m : ModuleRef)

/-- A module is shown well exactly when it loads and its discovery succeeds. -/
theorem isOk_ofModule : (ofModule s m).1.isOk = true ↔ ∃ metadata keywords,
    s.load m.id = .ok metadata ∧ Discovery.discover metadata = .ok keywords := by
  unfold ofModule
  cases s.load m.id with
  | error e => simp [isOk, Except.isOk, Except.toBool]
  | ok metadata =>
    cases hdiscover : Discovery.discover metadata <;>
      simp [isOk, hdiscover, Except.isOk, Except.toBool]

variable {s m}

/-- What is shown of a module is read from what loads for it. -/
theorem ofModule_congr {s' : MetadataStore} (h : s'.load m.id = s.load m.id) :
    ofModule s' m = ofModule s m := by
  rw [ofModule, h, ofModule]

/-- A module that does not load or whose discovery fails, with the message that says why. -/
inductive Fails (s : MetadataStore) (m : ModuleRef) : String → Prop
  | load {e : StoreError} (refused : s.load m.id = .error e) : Fails s m e.message
  | discovery {metadata : ModuleMetadata} {e : DeclarationError}
      (loaded : s.load m.id = .ok metadata) (rejected : Discovery.discover metadata = .error e) :
      Fails s m e.message

theorem ofModule_of_fails {message : String} (h : Fails s m message) :
    (ofModule s m).1 = ⟨m, .error message⟩ := by
  cases h with
  | load refused => rw [ofModule, refused]
  | discovery loaded rejected => simp only [ofModule, loaded, rejected]

end Listing

/-! ## Runs -/

namespace CommandLine

/-- The run that lists the whole store. -/
def listAll (s : MetadataStore) (o : Options) : Response := respond s { o with module := none }

/-- The run that lists one module. -/
def listOne (s : MetadataStore) (o : Options) (name : String) : Response :=
  respond s { o with module := some name }

section Runs

variable {s : MetadataStore} {o : Options}

/-- A store that cannot be opened is not listed. -/
theorem respond_of_not_opened {e : StoreError} (h : s.migrate = .error e) :
    (respond s o).stdout = "" ∧ (respond s o).exit = 1 := by
  unfold respond openAndList
  rw [h]
  exact ⟨rfl, rfl⟩

/-- What a run prints as text, and how it ends. -/
theorem respond_of_found (hopened : s.migrate = .ok ()) (htext : o.json = false)
    {found : List (Listing × List Log.Event)} (h : listings s o.module = .ok found) :
    (respond s o).stdout = String.join (found.map (·.1.text)) ∧
      ((respond s o).exit = 0 ↔ (found.map (·.1)).all (·.isOk) = true) := by
  unfold respond openAndList listStore
  rw [hopened, h]
  simp [htext, Listing.textOf, Function.comp_def]

/-- A run that finds nothing to list prints nothing and fails. -/
theorem respond_of_not_found (hopened : s.migrate = .ok ()) {message : String}
    (h : listings s o.module = .error message) :
    (respond s o).stdout = "" ∧ (respond s o).exit ≠ 0 := by
  unfold respond openAndList listStore
  rw [hopened, h]
  exact ⟨rfl, Nat.one_ne_zero⟩

/-- A run that lists one module shows it as it is read from the store. -/
theorem listOne_of_ok (hopened : s.migrate = .ok ()) (hnames : s.UniqueNames)
    (htext : o.json = false) {row : StoredModule} (hrow : row ∈ s.modules) {name : String}
    (hname : Text.sameName name row.name = true) {m : ModuleRef} (hm : decodeRef row = .ok m) :
    (listOne s o name).stdout = (Listing.ofModule s m).1.text ∧
      ((listOne s o name).exit = 0 ↔ (Listing.ofModule s m).1.isOk = true) := by
  have hfound : listings s (some name) = .ok [Listing.ofModule s m] := by
    rw [listings, hnames.find?_eq hrow hname, hm]
    rfl
  obtain ⟨hstdout, hexit⟩ := respond_of_found (o := { o with module := some name }) hopened htext
    hfound
  exact ⟨hstdout.trans (by simp), hexit.trans (by simp)⟩

/-- A module of which the store cannot tell the identity is not listed. -/
theorem listOne_of_error (hopened : s.migrate = .ok ()) (hnames : s.UniqueNames)
    {row : StoredModule} (hrow : row ∈ s.modules) {name : String}
    (hname : Text.sameName name row.name = true) {e : StoreError} (he : decodeRef row = .error e) :
    (listOne s o name).stdout = "" ∧ (listOne s o name).exit ≠ 0 := by
  have hfound : listings s (some name) = .error e.message := by
    rw [listings, hnames.find?_eq hrow hname, he]
    rfl
  exact respond_of_not_found (o := { o with module := some name }) hopened hfound

/-- A run that lists the whole store shows its modules one after the other. -/
theorem listAll_of_ok (hopened : s.migrate = .ok ()) (htext : o.json = false)
    {refs : List ModuleRef} (hlist : s.list = .ok refs) :
    (listAll s o).stdout = String.join (refs.map fun m => (Listing.ofModule s m).1.text) ∧
      ((listAll s o).exit = 0 ↔ ∀ m ∈ refs, (Listing.ofModule s m).1.isOk = true) := by
  have hfound : listings s none = .ok (refs.map (Listing.ofModule s)) := by
    rw [listings, hlist]
  obtain ⟨hstdout, hexit⟩ := respond_of_found (o := { o with module := none }) hopened htext hfound
  rw [List.map_map] at hstdout hexit
  rw [List.all_map, List.all_eq_true] at hexit
  exact ⟨hstdout, hexit⟩

theorem listAll_of_error (hopened : s.migrate = .ok ()) {e : StoreError}
    (hlist : s.list = .error e) : (listAll s o).stdout = "" ∧ (listAll s o).exit ≠ 0 := by
  have hfound : listings s none = .error e.message := by
    rw [listings, hlist]
  exact respond_of_not_found (o := { o with module := none }) hopened hfound

end Runs

/-! ## The whole listing and its parts -/

/-- A module is accepted: its row stands for a module that loads and whose discovery succeeds. -/
def Accepted (s : MetadataStore) (row : StoredModule) : Prop :=
  ∃ m metadata keywords, decodeRef row = .ok m ∧ s.load m.id = .ok metadata ∧
    Discovery.discover metadata = .ok keywords

/-- The listing of the whole store is that of its modules, each on its own. A module may be asked
for by its name in any case. -/
structure ListsApart (s : MetadataStore) (o : Options) : Prop where
  /-- The whole listing prints what the listings of the modules print, one after the other. -/
  stdout : ∀ refs, s.list = .ok refs → ∀ called : ModuleRef → String,
    (∀ m ∈ refs, Text.sameName (called m) m.name = true) →
      (listAll s o).stdout = String.join (refs.map fun m => (listOne s o (called m)).stdout)
  /-- A store with a module whose identity cannot be told is not listed. -/
  unlisted : ∀ e, s.list = .error e → (listAll s o).stdout = "" ∧ (listAll s o).exit ≠ 0
  /-- The whole listing succeeds exactly when that of each module does. -/
  exit : (listAll s o).exit = 0 ↔ ∀ row ∈ s.modules, ∀ name,
    Text.sameName name row.name = true → (listOne s o name).exit = 0
  /-- That of a module succeeds exactly when the module is accepted. -/
  accepted : ∀ row ∈ s.modules, ∀ name, Text.sameName name row.name = true →
    ((listOne s o name).exit = 0 ↔ Accepted s row)
  /-- A module that is not accepted is shown with its error. -/
  failed : ∀ row ∈ s.modules, ∀ name, Text.sameName name row.name = true → ∀ m,
    decodeRef row = .ok m → ∀ message, Listing.Fails s m message → (listOne s o name).stdout =
      m.text ++ " (" ++ m.id.text ++ ")\n" ++ ("  discovery failed: " ++ message ++ "\n")
  /-- What is shown of a module is the same in every other store that loads the same for it. -/
  unaffected : ∀ s' : MetadataStore, s'.migrate = .ok () → s'.UniqueNames →
    ∀ row ∈ s.modules, row ∈ s'.modules →
      (∀ m, decodeRef row = .ok m → s'.load m.id = s.load m.id) →
      ∀ name, Text.sameName name row.name = true →
        (listOne s' o name).stdout = (listOne s o name).stdout

section Apart

variable {s : MetadataStore} {o : Options}

/-- A listed module has its row. -/
theorem exists_row {refs : List ModuleRef} (hlist : s.list = .ok refs) {m : ModuleRef}
    (hm : m ∈ refs) : ∃ row ∈ s.modules, decodeRef row = .ok m ∧ row.name = m.name := by
  rw [MetadataStore.list, Success.mapM_eq_ok] at hlist
  obtain ⟨row, hrow, hdecoded⟩ := Success.exists_of_forall₂ hlist.flip hm
  refine ⟨row, List.mem_mergeSort.1 hrow, hdecoded, ?_⟩
  unfold decodeRef at hdecoded
  split at hdecoded
  · exact congrArg ModuleRef.name (Except.ok.inj hdecoded)
  · cases hdecoded

/-- A row of a store that is listed stands for a listed module. -/
theorem exists_ref {refs : List ModuleRef} (hlist : s.list = .ok refs) {row : StoredModule}
    (hrow : row ∈ s.modules) : ∃ m ∈ refs, decodeRef row = .ok m := by
  rw [MetadataStore.list, Success.mapM_eq_ok] at hlist
  exact Success.exists_of_forall₂ hlist (List.mem_mergeSort.2 hrow)

/-- If a store is not listed, some row stands for no module. -/
theorem exists_unreadable {e : StoreError} (hlist : s.list = .error e) :
    ∃ row ∈ s.modules, ∃ e, decodeRef row = .error e := by
  have hfails : FailsOnly (fun _ => ∃ row ∈ s.modules, ∃ e, decodeRef row = .error e) s.list :=
    FailsOnly.mapM fun row hrow e he => ⟨row, List.mem_mergeSort.1 hrow, e, he⟩
  exact hfails e hlist

theorem accepted_iff {row : StoredModule} {m : ModuleRef} (hm : decodeRef row = .ok m) :
    Accepted s row ↔ (Listing.ofModule s m).1.isOk = true := by
  rw [Listing.isOk_ofModule, Accepted, hm]
  simp

/-- A listing of one module succeeds exactly when the module is accepted. -/
theorem exit_listOne_iff (hopened : s.migrate = .ok ()) (hnames : s.UniqueNames)
    (htext : o.json = false) {row : StoredModule} (hrow : row ∈ s.modules) {name : String}
    (hname : Text.sameName name row.name = true) :
    (listOne s o name).exit = 0 ↔ Accepted s row := by
  cases hm : decodeRef row with
  | error e =>
    have hfailed := (listOne_of_error (o := o) hopened hnames hrow hname hm).2
    simp [Accepted, hm, hfailed]
  | ok m =>
    rw [accepted_iff hm]
    exact (listOne_of_ok hopened hnames htext hrow hname hm).2

/-- The listing of the whole store succeeds exactly when every module is accepted. -/
theorem exit_listAll_iff (hopened : s.migrate = .ok ()) (htext : o.json = false) :
    (listAll s o).exit = 0 ↔ ∀ row ∈ s.modules, Accepted s row := by
  cases hlist : s.list with
  | error e =>
    refine iff_of_false (listAll_of_error hopened hlist).2 fun hall => ?_
    obtain ⟨row, hrow, e', he'⟩ := exists_unreadable hlist
    obtain ⟨m, -, -, hm, -⟩ := hall row hrow
    cases he'.symm.trans hm
  | ok refs =>
    rw [(listAll_of_ok hopened htext hlist).2]
    constructor
    · intro hall row hrow
      obtain ⟨m, hm, hdecoded⟩ := exists_ref hlist hrow
      exact (accepted_iff hdecoded).2 (hall m hm)
    · intro hall m hm
      obtain ⟨row, hrow, hdecoded, -⟩ := exists_row hlist hm
      exact (accepted_iff hdecoded).1 (hall row hrow)

end Apart

/-- A store lists its modules apart from each other, if it can be opened at all. -/
theorem listsApart {s : MetadataStore} (hnames : s.UniqueNames) {o : Options}
    (htext : o.json = false) :
    (∀ e, s.migrate = .error e → ∀ module, (respond s { o with module := module }).stdout = "" ∧
      (respond s { o with module := module }).exit = 1) ∧
      (s.migrate = .ok () → ListsApart s o) := by
  refine ⟨fun e he module => respond_of_not_opened he, fun hopened =>
    ⟨fun refs hlist called hcalled => ?_, fun e => listAll_of_error hopened, ?_,
      fun row hrow name => exit_listOne_iff hopened hnames htext hrow, ?_, ?_⟩⟩
  · rw [(listAll_of_ok hopened htext hlist).1]
    refine congrArg String.join (List.map_congr_left fun m hm => ?_)
    obtain ⟨row, hrow, hdecoded, hname⟩ := exists_row hlist hm
    have hcall := hcalled m hm
    rw [← hname] at hcall
    exact (listOne_of_ok hopened hnames htext hrow hcall hdecoded).1.symm
  · rw [exit_listAll_iff hopened htext]
    refine forall₂_congr fun row hrow => ?_
    constructor
    · intro haccepted name hname
      exact (exit_listOne_iff hopened hnames htext hrow hname).2 haccepted
    · intro hall
      have hsame : Text.sameName row.name row.name = true := Text.sameName_refl _
      exact (exit_listOne_iff hopened hnames htext hrow hsame).1 (hall row.name hsame)
  · intro row hrow name hname m hm message hfails
    rw [(listOne_of_ok hopened hnames htext hrow hname hm).1, Listing.ofModule_of_fails hfails,
      Listing.text_error]
  · intro s' hopened' hnames' row hrow hrow' hload name hname
    cases hm : decodeRef row with
    | error e =>
      rw [(listOne_of_error hopened hnames hrow hname hm).1,
        (listOne_of_error hopened' hnames' hrow' hname hm).1]
    | ok m =>
      rw [(listOne_of_ok hopened hnames htext hrow hname hm).1,
        (listOne_of_ok hopened' hnames' htext hrow' hname hm).1,
        Listing.ofModule_congr (hload m hm)]

/-! ### A sample -/

namespace Stamps

/-- A module without keywords. -/
def archive : ModuleMetadata := ⟨⟨⟨1⟩, "Archive", "1.0"⟩, []⟩

/-- A module that is not accepted: what must be used cannot stand at the top of a module. -/
def metadata : ModuleMetadata := ⟨⟨⟨2⟩, "Stamps", "1.0"⟩, [TypeRecord.mk "Stamp"
  (some Marker.baseType) .classType [Marker.ofKeyword .command .required] [] [] []]⟩

/-- A store of both. -/
def store : MetadataStore := (MetadataStore.empty.write archive).write metadata

theorem uniqueNames_store : store.UniqueNames :=
  (MetadataStore.UniqueNames.empty.write archive).write metadata

theorem modules_store : store.modules = [encodeModule archive, encodeModule metadata] := by
  with_unfolding_all rfl

theorem list_store : store.list = .ok [archive.module, metadata.module] := by
  have hsorted : store.rows = [encodeModule archive, encodeModule metadata] := by
    rw [MetadataStore.rows, modules_store, List.mergeSort_of_pairwise (by decide +kernel)]
  rw [MetadataStore.list, hsorted]
  with_unfolding_all rfl

theorem load_store : store.load ⟨2⟩ = .ok metadata := by with_unfolding_all rfl

theorem discover_metadata :
    Discovery.discover metadata = .error (.invalidUseMode "Stamp" .required) := by
  with_unfolding_all rfl

end Stamps

/-- A module that is not accepted stands with its error after one that is. -/
theorem listsApart_stamps :
    (listAll Stamps.store {}).stdout =
        (listOne Stamps.store {} "ARCHIVE").stdout ++ (listOne Stamps.store {} "stamps").stdout ∧
      (listOne Stamps.store {} "stamps").stdout =
        Stamps.metadata.module.text ++ " (" ++ ModuleId.text ⟨2⟩ ++ ")\n" ++
          ("  discovery failed: " ++ (DeclarationError.invalidUseMode "Stamp" .required).message ++
            "\n") ∧
      (listAll Stamps.store {}).exit ≠ 0 := by
  have harchive : Text.sameName "ARCHIVE" "Archive" = true :=
    Text.sameName_of_toList (by decide +kernel)
  have hstamps : Text.sameName "stamps" "Stamps" = true :=
    Text.sameName_of_toList (by decide +kernel)
  have hrow : encodeModule Stamps.metadata ∈ Stamps.store.modules := by simp [Stamps.modules_store]
  have hdecoded := decodeRef_encodeModule Stamps.metadata
  have apart := (listsApart Stamps.uniqueNames_store (o := {}) rfl).2 rfl
  refine ⟨?_, ?_, fun hzero => ?_⟩
  · let called (m : ModuleRef) : String := if m.id = ⟨1⟩ then "ARCHIVE" else "stamps"
    rw [apart.stdout _ Stamps.list_store called
      (by simp [called, Stamps.archive, Stamps.metadata, harchive, hstamps])]
    simp [called, Stamps.archive, Stamps.metadata]
  · exact apart.failed _ hrow "stamps" hstamps _ hdecoded _
      (.discovery Stamps.load_store Stamps.discover_metadata)
  · have hone := apart.exit.1 hzero _ hrow "stamps" hstamps
    obtain ⟨m, metadata, keywords, hm, hload, hfound⟩ := (apart.accepted _ hrow _ hstamps).1 hone
    obtain rfl := Except.ok.inj (hdecoded.symm.trans hm)
    obtain rfl := Except.ok.inj (Stamps.load_store.symm.trans hload)
    cases Stamps.discover_metadata.symm.trans hfound

end CommandLine

end KeywordEngine
