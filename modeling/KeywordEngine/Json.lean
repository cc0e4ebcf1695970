import KeywordEngine.Text.Decimal

/-!
# JSON documents

`Json.pretty` writes a document over several lines, two blanks per level, with the fields of an
object in the order in which it holds them. Strings keep every character except the quote, the
backslash and the control characters below U+0020, which are escaped.
-/

namespace KeywordEngine

/-- A JSON document whose numbers are whole. -/
inductive Json where
  | null
  | bool (b : Bool)
  | int (n : Int)
  | string (s : String)
  | array (items : List Json)
  | object (fields : List (String × Json))

namespace Json

/-- How one character stands in a string. -/
private def escape (c : Char) : List Char :=
  if c = '"' then ['\\', '"']
  else if c = '\\' then ['\\', '\\']
  else if c = '\n' then ['\\', 'n']
  else if c = '\r' then ['\\', 'r']
  else if c = '\t' then ['\\', 't']
  else if c.toNat = 8 then ['\\', 'b']
  else if c.toNat = 12 then ['\\', 'f']
  else if c.toNat < 32 then
    ['\\', 'u', '0', '0', Nat.digitChar (c.toNat / 16), Nat.digitChar (c.toNat % 16)]
  else [c]

/-- `s` between quotes. -/
def quote (s : String) : String :=
  String.ofList ('"' :: s.toList.flatMap escape ++ ['"'])

/-- The blanks at the start of a line of the given depth. -/
private def indent (depth : Nat) : String := String.ofList (List.replicate (2 * depth) ' ')

/-- `items` on lines of their own between two brackets; nothing at all between them if there are
no items. -/
private def bracketed (opening closing : String) (depth : Nat) (items : List String) : String :=
  if items.isEmpty then opening ++ closing
  else
    opening ++ "\n" ++ ",\n".intercalate (items.map (indent (depth + 1) ++ ·)) ++ "\n" ++
      indent depth ++ closing

mutual
/-- The document over several lines, its first line continued and the others at `depth`. -/
def prettyAt (depth : Nat) : Json → String
  | null => "null"
  | bool b => if b then "true" else "false"
  | int n => Text.ofInt n
  | string s => quote s
  | array items => bracketed "[" "]" depth (prettyItems (depth + 1) items)
  | object fields => bracketed "\x7b" "\x7d" depth (prettyFields (depth + 1) fields)

/-- The documents of an array. -/
def prettyItems (depth : Nat) : List Json → List String
  | [] => []
  | item :: rest => prettyAt depth item :: prettyItems depth rest

/-- The fields of an object. -/
def prettyFields (depth : Nat) : List (String × Json) → List String
  | [] => []
  | (name, item) :: rest => (quote name ++ ": " ++ prettyAt depth item) :: prettyFields depth rest
end

/-- The document over several lines. -/
def pretty (j : Json) : String := prettyAt 0 j

end Json

end KeywordEngine
