import KeywordEngine.Text.Case
import KeywordEngine.Text.Hexadecimal

/-!
# Module identities

A module is identified by 128 bits, written as 32 hexadecimal digits in groups of 8, 4, 4, 4 and
12 (`ModuleId.text`). `ModuleId.ofText?` reads that form with digits in either case, with or
without the hyphens, and the hyphenated form also in braces or after `urn:uuid:`. Identities are
ordered by their bits, which is the order of their canonical texts.

* `ModuleId.ofText?_text`: what was written is read back, so no two identities are written alike
  (`ModuleId.text_inj`).
-/

namespace KeywordEngine

/-- The 128-bit identity of a module. -/
structure ModuleId where
  bits : BitVec 128
  deriving DecidableEq, Repr

namespace ModuleId

instance : Inhabited ModuleId := ⟨⟨0⟩⟩

/-- Identities are ordered as numbers. -/
instance : Ord ModuleId := ⟨fun a b => compare a.bits.toNat b.bits.toNat⟩

private theorem compare_def (a b : ModuleId) : compare a b = compare a.bits.toNat b.bits.toNat :=
  rfl

instance : Std.TransOrd ModuleId where
  eq_swap {_ _} := by
    simp only [compare_def]
    exact Std.OrientedOrd.eq_swap
  isLE_trans {_ _ _} := by
    simp only [compare_def]
    exact Std.TransOrd.isLE_trans

instance : Std.LawfulEqOrd ModuleId where
  eq_of_compare {a b} h := by
    obtain ⟨a⟩ := a
    obtain ⟨b⟩ := b
    exact congrArg _ (BitVec.eq_of_toNat_eq (Nat.compare_eq_eq.1 h))
  compare_self := by simp

/-- The hexadecimal digit at `place`, counted from the last one. -/
private def digitAt (id : ModuleId) (place : Nat) : Char :=
  Nat.digitChar (id.bits.toNat >>> (4 * place) % 16)

/-- `n` digits, the last of them at `place`. -/
private def digitsAt (id : ModuleId) (place n : Nat) : List Char :=
  (List.range n).reverse.map fun i => id.digitAt (place + i)

/-- The canonical form: small hexadecimal digits in hyphenated groups. -/
def text (id : ModuleId) : String :=
  String.ofList (id.digitsAt 24 8 ++ '-' :: id.digitsAt 20 4 ++ '-' :: id.digitsAt 16 4 ++
    '-' :: id.digitsAt 12 4 ++ '-' :: id.digitsAt 0 12)

/-- Reads exactly 32 hexadecimal digits. -/
def ofDigits? (cs : List Char) : Option ModuleId :=
  if cs.length = 32 then do
    let values ← cs.mapM Text.hexValue?
    return ⟨BitVec.ofNat 128 (values.foldl (fun n d => 16 * n + d) 0)⟩
  else none

/-- Reads the hyphenated form: hyphens after 8, 12, 16 and 20 digits and nowhere else. -/
def ofHyphenated? (cs : List Char) : Option ModuleId :=
  if cs.length = 36 ∧ cs[8]? = some '-' ∧ cs[13]? = some '-' ∧ cs[18]? = some '-' ∧
      cs[23]? = some '-' then
    ofDigits? (cs.take 8 ++ (cs.drop 9).take 4 ++ (cs.drop 14).take 4 ++ (cs.drop 19).take 4 ++
      cs.drop 24)
  else none

/-- The text between an opening and a closing brace. -/
private def unbraced? : List Char → Option (List Char)
  | '\x7b' :: rest => if rest.getLast? = some '\x7d' then some rest.dropLast else none
  | _ => none

/-- The text after `urn:uuid:` in any case. -/
private def unnamed? (cs : List Char) : Option (List Char) :=
  if Text.sameName (String.ofList (cs.take 9)) "urn:uuid:" then some (cs.drop 9) else none

/-- Reads an identity in any of its four forms. -/
def ofText? (s : String) : Option ModuleId :=
  let cs := s.toList
  ofDigits? cs <|> ofHyphenated? cs <|> (unbraced? cs >>= ofHyphenated?) <|>
    (unnamed? cs >>= ofHyphenated?)

/-! ## Reading what was written -/

/-- The last `n` digits of a number, read after the ones before them. -/
private theorem foldl_digits (bits n : Nat) :
    ((List.range n).reverse.map fun i => bits >>> (4 * i) % 16).foldl (fun n d => 16 * n + d)
      (bits >>> (4 * n)) = bits := by
  induction n with
  | zero => rfl
  | succ n ih =>
    have digit : 16 * bits >>> (4 * (n + 1)) + bits >>> (4 * n) % 16 = bits >>> (4 * n) := by
      rw [Nat.mul_add, Nat.shiftRight_add]
      omega
    rw [List.range_succ, List.reverse_append, List.reverse_singleton, List.singleton_append,
      List.map_cons, List.foldl_cons, digit, ih]

private theorem mapM_digitsAt (id : ModuleId) (place n : Nat) :
    (id.digitsAt place n).mapM Text.hexValue? =
      some ((List.range n).reverse.map fun i => id.bits.toNat >>> (4 * (place + i)) % 16) := by
  rw [digitsAt, List.mapM_map]
  generalize (List.range n).reverse = places
  induction places with
  | nil => rfl
  | cons i rest ih =>
    have small : id.bits.toNat >>> (4 * (place + i)) % 16 < 16 := Nat.mod_lt _ (by decide)
    rw [List.mapM_cons, ih, Function.comp, digitAt, Text.hexValue?_digitChar small]
    rfl

private theorem ofDigits?_digitsAt (id : ModuleId) : ofDigits? (id.digitsAt 0 32) = some id := by
  have length : (id.digitsAt 0 32).length = 32 := by simp [digitsAt]
  rw [ofDigits?, if_pos length, mapM_digitsAt]
  have before : id.bits.toNat >>> (4 * 32) = 0 := Nat.shiftRight_eq_zero _ _ id.bits.isLt
  have read := foldl_digits id.bits.toNat 32
  rw [before] at read
  simp only [Nat.zero_add, Option.bind_eq_bind, Option.bind_some, read, BitVec.ofNat_toNat,
    BitVec.setWidth_eq]
  rfl

private theorem ofHyphenated?_text (id : ModuleId) : ofHyphenated? id.text.toList = some id := by
  rw [text, String.toList_ofList, ofHyphenated?, if_pos (by simp [digitsAt, List.range_succ])]
  exact ofDigits?_digitsAt id

/-- What was written is read back. -/
theorem ofText?_text (id : ModuleId) : ofText? id.text = some id := by
  have long : ofDigits? id.text.toList = none := by simp [ofDigits?, text, digitsAt]
  rw [ofText?, long, ofHyphenated?_text]
  rfl

/-- Different identities are written differently. -/
theorem text_inj {id id' : ModuleId} : id.text = id'.text ↔ id = id' := by
  refine ⟨fun h => ?_, congrArg text⟩
  have read := congrArg ofText? h
  rw [ofText?_text, ofText?_text] at read
  exact Option.some.inj read

end ModuleId

/-- What names a module: its identity, its name and its version. -/
structure ModuleRef where
  id : ModuleId
  name : String
  version : String
  deriving DecidableEq, Repr

/-- A module is shown by its name and version. -/
def ModuleRef.text (m : ModuleRef) : String := m.name ++ "@" ++ m.version

end KeywordEngine
