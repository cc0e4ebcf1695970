import KeywordEngine.Json
import KeywordEngine.Text.Decimal
import KeywordEngine.Text.Hexadecimal

/-!
# JSON tokens

A text is cut into tokens by a scanner that reads one character at a time (`Scanner.step`). Numbers
are whole. An escape `\u` stands for the character with that code; the codes that belong to no
character are refused.
-/

namespace KeywordEngine.Json

/-- The smallest parts of a JSON text. -/
inductive Token where
  | openArray
  | closeArray
  | openObject
  | closeObject
  | comma
  | colon
  | null
  | bool (b : Bool)
  | int (n : Int)
  | string (s : String)
  deriving DecidableEq, Repr

namespace Token

/-- The token that one character makes up. -/
def ofChar? : Char → Option Token
  | '[' => some openArray
  | ']' => some closeArray
  | '\x7b' => some openObject
  | '\x7d' => some closeObject
  | ',' => some comma
  | ':' => some colon
  | _ => none

/-- The number that decimal digits denote; a zero does not lead other digits. -/
def natOf? : List Char → Option Nat
  | '0' :: _ :: _ => none
  | ds => Text.digits? ds

/-- The token that a run of letters, digits and signs makes up. -/
def ofWord? (word : List Char) : Option Token :=
  if word = ['n', 'u', 'l', 'l'] then some null
  else if word = ['t', 'r', 'u', 'e'] then some (bool true)
  else if word = ['f', 'a', 'l', 's', 'e'] then some (bool false)
  else match word with
    | '-' :: ds => (natOf? ds).map fun n => int (-n)
    | ds => (natOf? ds).map fun n => int n

end Token

/-! ## Scanning -/

/-- What the scanner is in the middle of; the characters read so far stand last first. -/
inductive Scanner where
  | between
  | word (read : List Char)
  | text (read : List Char)
  /-- After a backslash. -/
  | escape (read : List Char)
  /-- After `\u`, with the number of digits to come and the value of those read. -/
  | code (read : List Char) (missing value : Nat)
  deriving DecidableEq, Repr

namespace Scanner

/-- The white space of JSON. -/
def isBlank (c : Char) : Bool := c == ' ' || c == '\t' || c == '\n' || c == '\r'

/-- Whether a character belongs to a number or to a name such as `true`. -/
def isWordChar (c : Char) : Bool := c.isAlphanum || c == '-' || c == '+' || c == '.'

/-- The character that a short escape stands for. -/
def unescape? : Char → Option Char
  | '"' => some '"'
  | '\\' => some '\\'
  | '/' => some '/'
  | 'b' => some '\x08'
  | 'f' => some '\x0c'
  | 'n' => some '\n'
  | 'r' => some '\r'
  | 't' => some '\t'
  | _ => none

/-- The character with that code. -/
def charOf? (n : Nat) : Option Char := if n.isValidChar then some (Char.ofNat n) else none

/-- Reads a character between two tokens: the token it makes up, if any, and what follows. -/
def start? (c : Char) : Option (List Token × Scanner) :=
  match Token.ofChar? c with
  | some t => some ([t], between)
  | none =>
    if isBlank c then some ([], between)
    else if c = '"' then some ([], text [])
    else if isWordChar c then some ([], word [c])
    else none

/-- Reads one character: the tokens that it ends, and what follows. -/
def step : Scanner → Char → Option (List Token × Scanner)
  | between, c => start? c
  | word read, c =>
    if isWordChar c then some ([], word (c :: read))
    else do
      let t ← Token.ofWord? read.reverse
      let (ts, next) ← start? c
      return (t :: ts, next)
  | text read, c =>
    if c = '"' then some ([.string (String.ofList read.reverse)], between)
    else if c = '\\' then some ([], escape read)
    else if c.toNat < 32 then none
    else some ([], text (c :: read))
  | escape read, c =>
    if c = 'u' then some ([], code read 4 0)
    else (unescape? c).map fun e => ([], text (e :: read))
  | code read missing value, c => do
    let digit ← Text.hexValue? c
    let value := 16 * value + digit
    if missing ≤ 1 then return ([], text ((← charOf? value) :: read))
    else return ([], code read (missing - 1) value)

/-- The tokens that the end of the text ends. -/
def finish? : Scanner → Option (List Token)
  | between => some []
  | word read => (Token.ofWord? read.reverse).map fun t => [t]
  | text _ | escape _ | code _ _ _ => none

end Scanner

/-- The tokens of a text. -/
def tokens? (s : String) : Option (List Token) := do
  let (found, last) ← s.toList.foldlM (fun (found, scanner) c => do
    let (ts, next) ← scanner.step c
    return (ts.reverse ++ found, next)) (([] : List Token), Scanner.between)
  return found.reverse ++ (← last.finish?)

end KeywordEngine.Json
