import KeywordEngine.Json.Token

/-!
# Reading JSON

`Json.ofText?` reads one document with white space around it. The fields of an object are kept in
their order, repeated names included.

A part of the reader gives what it read and the tokens that are left, which are fewer than it was
given (`Fewer`).
-/

namespace KeywordEngine.Json

/-- What is left of `ts` after at least one token. -/
abbrev Fewer (ts : List Token) := { rest : List Token // rest.length < ts.length }

private theorem length_lt_cons (t : Token) (ts : List Token) : ts.length < (t :: ts).length :=
  Nat.lt_succ_self _

private theorem length_lt_cons_of_lt {t : Token} {left ts : List Token}
    (h : left.length < ts.length) : left.length < (t :: ts).length :=
  Nat.lt_succ_of_lt h

mutual
/-- Reads a document. -/
def readValue? (ts : List Token) : Option (Json × Fewer ts) :=
  match ts with
  | .null :: rest => some (null, ⟨rest, length_lt_cons ..⟩)
  | .bool b :: rest => some (bool b, ⟨rest, length_lt_cons ..⟩)
  | .int n :: rest => some (int n, ⟨rest, length_lt_cons ..⟩)
  | .string s :: rest => some (string s, ⟨rest, length_lt_cons ..⟩)
  | .openArray :: .closeArray :: rest =>
    some (array [], ⟨rest, length_lt_cons_of_lt (length_lt_cons ..)⟩)
  | .openArray :: rest =>
    match readItems? rest with
    | some (items, ⟨left, h⟩) => some (array items, ⟨left, length_lt_cons_of_lt h⟩)
    | none => none
  | .openObject :: .closeObject :: rest =>
    some (object [], ⟨rest, length_lt_cons_of_lt (length_lt_cons ..)⟩)
  | .openObject :: rest =>
    match readFields? rest with
    | some (fields, ⟨left, h⟩) => some (object fields, ⟨left, length_lt_cons_of_lt h⟩)
    | none => none
  | _ => none
termination_by (ts.length, 0)
decreasing_by
  · exact Prod.Lex.left _ _ (length_lt_cons ..)
  · exact Prod.Lex.left _ _ (length_lt_cons ..)

/-- Reads the items of an array from the next one to the closing bracket. -/
def readItems? (ts : List Token) : Option (List Json × Fewer ts) :=
  match readValue? ts with
  | some (item, ⟨.comma :: rest, h⟩) =>
    match readItems? rest with
    | some (items, ⟨left, h'⟩) =>
      some (item :: items, ⟨left, Nat.lt_trans (length_lt_cons_of_lt h') h⟩)
    | none => none
  | some (item, ⟨.closeArray :: rest, h⟩) =>
    some ([item], ⟨rest, Nat.lt_trans (length_lt_cons ..) h⟩)
  | _ => none
termination_by (ts.length, 1)
decreasing_by
  · exact Prod.Lex.right _ Nat.zero_lt_one
  · exact Prod.Lex.left _ _ (Nat.lt_trans (length_lt_cons ..) h)

/-- Reads the fields of an object from the next one to the closing brace. -/
def readFields? (ts : List Token) : Option (List (String × Json) × Fewer ts) :=
  match ts with
  | .string name :: .colon :: inner =>
    match readValue? inner with
    | some (value, ⟨.comma :: rest, h⟩) =>
      match readFields? rest with
      | some (fields, ⟨left, h'⟩) =>
        have := Nat.lt_trans (length_lt_cons_of_lt h') h
        some ((name, value) :: fields, ⟨left, length_lt_cons_of_lt (length_lt_cons_of_lt this)⟩)
      | none => none
    | some (value, ⟨.closeObject :: rest, h⟩) =>
      have := Nat.lt_trans (length_lt_cons ..) h
      some ([(name, value)], ⟨rest, length_lt_cons_of_lt (length_lt_cons_of_lt this)⟩)
    | _ => none
  | _ => none
termination_by (ts.length, 1)
decreasing_by
  · exact Prod.Lex.left _ _ (length_lt_cons_of_lt (length_lt_cons ..))
  · exact Prod.Lex.left _ _
      (length_lt_cons_of_lt (length_lt_cons_of_lt (Nat.lt_trans (length_lt_cons ..) h)))
end

/-- Reads one document. -/
def ofText? (s : String) : Option Json :=
  match tokens? s with
  | none => none
  | some ts =>
    match readValue? ts with
    | some (j, ⟨[], _⟩) => some j
    | _ => none

/-! ## Access -/

/-- The first field of that name. -/
def field? (j : Json) (name : String) : Option Json :=
  match j with
  | object fields => fields.lookup name
  | _ => none

/-- The text of a string. -/
def string? : Json → Option String
  | string s => some s
  | _ => none

/-- The number. -/
def int? : Json → Option Int
  | int n => some n
  | _ => none

/-- The items of an array. -/
def items? : Json → Option (List Json)
  | array items => some items
  | _ => none

/-- The text in a field. -/
def text? (j : Json) (name : String) : Option String := (j.field? name).bind string?

end KeywordEngine.Json
