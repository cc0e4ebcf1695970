import KeywordEngine.Keyword.Spec
import KeywordEngine.Text.Decimal

/-!
# Valid declarations

The rules that a single declaration obeys: its name is an identifier, a keyword at module root is
`OptionalMany`, a command has no nested keywords, nested keywords differ in name, and no two
parameters share a position in any parameter set.

* `KeywordSpec.validate` reports the first rule that is broken, in this order.
* `firstRepeated?_eq_none_iff`: nothing is repeated exactly when all keys are different.
-/

namespace KeywordEngine

/-- Why the declarations of a module are rejected. -/
inductive DeclarationError where
  /-- Two keywords of one scope share a name. -/
  | duplicateKeyword (name scope : String)
  /-- A keyword at module root is not `OptionalMany`. -/
  | invalidUseMode (keyword : String) (use : UseMode)
  /-- A keyword is nested in a command. -/
  | nestedUnderCommand (parent child : String)
  /-- Two parameters share a position in a parameter set. -/
  | duplicatePosition (keyword set : String) (position : UInt32)
  /-- A keyword name is no identifier. -/
  | invalidKeywordName (name : String)
  /-- An argument of a marker attribute has the wrong type or an unknown value. -/
  | invalidAttributeArgument (owner argument value : String)
  deriving DecidableEq, Repr

/-- The error as shown to the user. -/
def DeclarationError.message : DeclarationError → String
  | duplicateKeyword name scope =>
    "keyword `" ++ name ++ "` is declared more than once in `" ++ scope ++ "`"
  | invalidUseMode keyword use =>
    "top-level keyword `" ++ keyword ++ "` must use OptionalMany, found " ++ use.text
  | nestedUnderCommand parent child =>
    "keyword `" ++ child ++ "` cannot be nested under command-mode keyword `" ++ parent ++ "`"
  | duplicatePosition keyword set position =>
    "keyword `" ++ keyword ++ "` declares position " ++ Text.ofNat position.toNat ++
      " twice in parameter set `" ++ set ++ "`"
  | invalidKeywordName name => "keyword name is invalid: " ++ name
  | invalidAttributeArgument owner argument value =>
    "attribute argument `" ++ argument ++ "` on `" ++ owner ++ "` has invalid value: " ++ value

/-! ## Repetition -/

/-- The first item whose key is among `seen` or the keys of the items before it. -/
def firstRepeatedAfter? {α κ : Type} [DecidableEq κ] (key : α → κ) (seen : List κ) :
    List α → Option α
  | [] => none
  | a :: rest => if key a ∈ seen then some a else firstRepeatedAfter? key (key a :: seen) rest

/-- The first item whose key an earlier item has. -/
def firstRepeated? {α κ : Type} [DecidableEq κ] (key : α → κ) (l : List α) : Option α :=
  firstRepeatedAfter? key [] l

private theorem firstRepeatedAfter?_eq_none_iff {α κ : Type} [DecidableEq κ] {key : α → κ}
    {seen : List κ} {l : List α} :
    firstRepeatedAfter? key seen l = none ↔
      (l.map key).Nodup ∧ ∀ a ∈ l, key a ∉ seen := by
  induction l generalizing seen with
  | nil => simp [firstRepeatedAfter?]
  | cons a rest ih =>
    simp only [firstRepeatedAfter?, List.map_cons, List.nodup_cons, List.mem_map]
    split <;> grind

/-- Nothing is repeated exactly when all keys are different. -/
theorem firstRepeated?_eq_none_iff {α κ : Type} [DecidableEq κ] {key : α → κ} {l : List α} :
    firstRepeated? key l = none ↔ (l.map key).Nodup := by
  simp [firstRepeated?, firstRepeatedAfter?_eq_none_iff]

/-! ## The rules -/

/-- Whether a text is a letter or underscore followed by letters, digits and underscores. -/
def isIdentifier (s : String) : Bool :=
  match s.toList with
  | [] => false
  | c :: rest => (c.isAlpha || c == '_') && rest.all fun c => c.isAlphanum || c == '_'

/-- Rejects two keywords of one name among the keywords of a scope. -/
def validateSiblings (siblings : List KeywordSpec) (scope : String) :
    Except DeclarationError Unit :=
  match firstRepeated? (Text.fold ·.name) siblings with
  | some k => .error (.duplicateKeyword k.name scope)
  | none => .ok ()

namespace KeywordSpec

/-- A position that two parameters share in `set`: the one repeated first. -/
def repeatedPosition? (k : KeywordSpec) (set : String) : Option UInt32 :=
  firstRepeated? id (k.parameters.filterMap (·.position? set))

/-- Rejects two parameters with one position in a declared set or in `allSets`. -/
def validatePositions (k : KeywordSpec) : Except DeclarationError Unit :=
  match (k.setNames ++ [allSets]).findSome? fun set => (k.repeatedPosition? set).map (set, ·) with
  | some (set, position) => .error (.duplicatePosition k.name set position)
  | none => .ok ()

/-- Checks a keyword and the names of the keywords nested in it. -/
def validate (k : KeywordSpec) : Except DeclarationError Unit := do
  unless isIdentifier k.name do throw (.invalidKeywordName k.name)
  if !k.nested && k.use ≠ .optionalMany then throw (.invalidUseMode k.name k.use)
  if k.body = .command then
    if let some child := k.children.head? then throw (.nestedUnderCommand k.name child.name)
  validateSiblings k.children k.name
  k.validatePositions

end KeywordSpec

end KeywordEngine
