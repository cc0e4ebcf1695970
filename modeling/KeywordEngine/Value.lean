import KeywordEngine.Json
import KeywordEngine.Text.Decimal

/-!
# Runtime values

The values that arguments, properties, variables and hook results hold. A hashtable keeps its
entries in order, duplicates included, and its keys may be any values.

* `Value.text` is the form in which diagnostics quote a value.
* Equality of values is decidable (`instDecidableEqValue`).
-/

namespace KeywordEngine

/-- A runtime value. -/
inductive Value where
  | null
  | bool (b : Bool)
  | int (n : Int64)
  | string (s : String)
  | array (items : List Value)
  | hashtable (entries : List (Value × Value))
  deriving Repr

namespace Value

instance : Inhabited Value := ⟨null⟩

/-! ## Equality -/

mutual
/-- Decides whether two values are equal. -/
protected def decEq : (v w : Value) → Decidable (v = w)
  | .null, .null => isTrue rfl
  | .bool b, .bool c => decidable_of_iff (b = c) (by simp)
  | .int m, .int n => decidable_of_iff (m = n) (by simp)
  | .string s, .string t => decidable_of_iff (s = t) (by simp)
  | .array l, .array r =>
    have := Value.decEqItems l r
    decidable_of_iff (l = r) (by simp)
  | .hashtable l, .hashtable r =>
    have := Value.decEqEntries l r
    decidable_of_iff (l = r) (by simp)
  | .null, .bool _ | .null, .int _ | .null, .string _ | .null, .array _ | .null, .hashtable _
  | .bool _, .null | .bool _, .int _ | .bool _, .string _ | .bool _, .array _
  | .bool _, .hashtable _ | .int _, .null | .int _, .bool _ | .int _, .string _ | .int _, .array _
  | .int _, .hashtable _ | .string _, .null | .string _, .bool _ | .string _, .int _
  | .string _, .array _ | .string _, .hashtable _ | .array _, .null | .array _, .bool _
  | .array _, .int _ | .array _, .string _ | .array _, .hashtable _ | .hashtable _, .null
  | .hashtable _, .bool _ | .hashtable _, .int _ | .hashtable _, .string _
  | .hashtable _, .array _ => isFalse (by simp)

/-- Decides whether two lists of values are equal. -/
protected def decEqItems : (l r : List Value) → Decidable (l = r)
  | [], [] => isTrue rfl
  | [], _ :: _ | _ :: _, [] => isFalse (by simp)
  | v :: l, w :: r =>
    have := Value.decEq v w
    have := Value.decEqItems l r
    decidable_of_iff (v = w ∧ l = r) (by simp)

/-- Decides whether two lists of entries are equal. -/
protected def decEqEntries : (l r : List (Value × Value)) → Decidable (l = r)
  | [], [] => isTrue rfl
  | [], _ :: _ | _ :: _, [] => isFalse (by simp)
  | (k, v) :: l, (j, w) :: r =>
    have := Value.decEq k j
    have := Value.decEq v w
    have := Value.decEqEntries l r
    decidable_of_iff ((k = j ∧ v = w) ∧ l = r) (by simp)
end

instance : DecidableEq Value := Value.decEq

/-! ## Access -/

/-- The name of the kind of a value. -/
def kindName : Value → String
  | null => "null"
  | bool _ => "bool"
  | int _ => "int"
  | string _ => "string"
  | array _ => "array"
  | hashtable _ => "hashtable"

/-- The text of a string value. -/
def string? : Value → Option String
  | string s => some s
  | _ => none

/-- The number of an int value. -/
def int? : Value → Option Int64
  | int n => some n
  | _ => none

/-- Whether the value is null. -/
def isNull : Value → Bool
  | null => true
  | _ => false

/-! ## Text -/

/-- The word for a truth value. -/
def boolText (b : Bool) : String := if b then "true" else "false"

mutual
/-- The value as diagnostics quote it: strings in quotes without escapes, arrays as `@(a, b)`,
hashtables as a list of `key = value` in braces after `@`. -/
def text : Value → String
  | null => "null"
  | bool b => boolText b
  | int n => Text.ofInt n.toInt
  | string s => "\"" ++ s ++ "\""
  | array items => "@(" ++ ", ".intercalate (itemTexts items) ++ ")"
  | hashtable entries => "@\x7b" ++ "; ".intercalate (entryTexts entries) ++ "\x7d"

/-- The texts of the items of an array. -/
def itemTexts : List Value → List String
  | [] => []
  | v :: rest => v.text :: itemTexts rest

/-- The texts of the entries of a hashtable. -/
def entryTexts : List (Value × Value) → List String
  | [] => []
  | (k, v) :: rest => (k.text ++ " = " ++ v.text) :: entryTexts rest
end

mutual
/-- The value as a JSON document that names its kind. -/
def json : Value → Json
  | null => tagged "null" none
  | bool b => tagged "bool" (some (.bool b))
  | int n => tagged "int" (some (.int n.toInt))
  | string s => tagged "string" (some (.string s))
  | array items => tagged "array" (some (.array (itemsJson items)))
  | hashtable entries => tagged "hashtable" (some (.array (entriesJson entries)))
where
  /-- An object with the kind and, unless the kind says it all, the content. -/
  tagged (kind : String) (content : Option Json) : Json :=
    .object (("type", .string kind) :: (content.map (("value", ·))).toList)

/-- The items of an array as JSON documents. -/
def itemsJson : List Value → List Json
  | [] => []
  | v :: rest => v.json :: itemsJson rest

/-- The entries of a hashtable as JSON arrays of key and value. -/
def entriesJson : List (Value × Value) → List Json
  | [] => []
  | (k, v) :: rest => .array [k.json, v.json] :: entriesJson rest
end

end Value

end KeywordEngine
