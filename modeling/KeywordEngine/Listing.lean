import KeywordEngine.Discovery
import KeywordEngine.Keyword.Document
import KeywordEngine.Store

/-!
# Listings

The keywords of stored modules, discovered module by module and shown as an indented tree or as
JSON. A module that cannot be read or is rejected is shown with its error and does not affect the
others.

* `Listing.ofModule`: one module.
* `Listing.textOf`, `Listing.jsonOf`: the two forms.
-/

namespace KeywordEngine

/-- What the listing of a module shows. -/
structure Listing where
  module : ModuleRef
  /-- The keywords in name order, or what went wrong. -/
  result : Except String (List KeywordSpec)

namespace Listing

/-- The listing of a stored module with the events of its discovery. -/
def ofModule (s : MetadataStore) (m : ModuleRef) : Listing × List Log.Event :=
  match s.load m.id with
  | .error e => (⟨m, .error e.message⟩, [])
  | .ok metadata =>
    let discovered := Discovery.discover metadata
    let result :=
      match discovered with
      | .ok keywords => .ok keywords.values
      | .error e => .error e.message
    (⟨m, result⟩, [Discovery.event metadata.module discovered])

/-- Whether the module was read and accepted. -/
def isOk (l : Listing) : Bool := l.result.isOk

/-! ## Text -/

/-- A line at a depth of indentation. -/
private def line (depth : Nat) (text : String) : String :=
  String.ofList (List.replicate (2 * depth) ' ') ++ text ++ "\n"

/-- A membership as `SET: POSITION`, and whether it is mandatory. -/
private def membershipText (set : String) (m : SetMembership) : String :=
  set ++ ": " ++
    (match m.position with
    | none => "named"
    | some p => "pos " ++ Text.ofNat p.toNat) ++
    if m.mandatory then ", mandatory" else ""

/-- The line of a parameter. -/
private def parameterText (p : ParameterSpec) : String :=
  "-" ++ p.name ++ " <" ++ p.typeName ++ "> (" ++
    "; ".intercalate (p.sets.toList.map fun (set, m) => membershipText set m) ++ ")"

/-- The line of a property. -/
private def propertyText (p : PropertySpec) : String :=
  "." ++ p.name ++ " <" ++ p.typeName ++ ">" ++ if p.mandatory then " mandatory" else ""

mutual
/-- The lines of a keyword: its modes, its parameters, its properties and its nested keywords. -/
def keywordText (depth : Nat) : KeywordSpec → String
  | ⟨name, body, use, _, parameters, properties, children, _, _⟩ =>
    line depth (name ++ " [body=" ++ body.text ++ " use=" ++ use.text ++ "]") ++
      String.join (parameters.map fun p => line (depth + 1) (parameterText p)) ++
      String.join (properties.map fun p => line (depth + 1) (propertyText p)) ++
      keywordsText (depth + 1) children

/-- The lines of keywords. -/
def keywordsText (depth : Nat) : List KeywordSpec → String
  | [] => ""
  | k :: rest => keywordText depth k ++ keywordsText depth rest
end

/-- The lines of a module. -/
def text (l : Listing) : String :=
  line 0 (l.module.text ++ " (" ++ l.module.id.text ++ ")") ++
    match l.result with
    | .ok [] => line 1 "(no keywords)"
    | .ok keywords => keywordsText 1 keywords
    | .error message => line 1 ("discovery failed: " ++ message)

/-- A module that is not accepted has the line with its error. -/
theorem text_error (m : ModuleRef) (message : String) : text ⟨m, .error message⟩ =
    m.text ++ " (" ++ m.id.text ++ ")\n" ++ ("  discovery failed: " ++ message ++ "\n") := by
  simp [text, line, ← String.toList_inj]

/-- The lines of listings. -/
def textOf (listings : List Listing) : String := String.join (listings.map text)

/-! ## JSON -/

/-- A module with its keywords or its error. -/
def json (l : Listing) : Json :=
  match l.result with
  | .ok keywords =>
    .object [("keywords", .array (keywordsJson keywords)), ("module", l.module.json)]
  | .error message => .object [("error", .string message), ("module", l.module.json)]

/-- The listings as a JSON document that ends its line. -/
def jsonOf (listings : List Listing) : String := (Json.array (listings.map json)).pretty ++ "\n"

end Listing

end KeywordEngine
