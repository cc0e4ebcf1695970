/-!
# Whole numbers as text

`ofInt` writes a number in decimal; `int64?` reads one that fits 64 bits.

* `signed?_ofInt`, `int64?_ofInt`: what was written is read back.
-/

namespace KeywordEngine.Text

/-- The decimal digits of `n`, without leading zeros. -/
def ofNat (n : Nat) : String := String.ofList (Nat.toDigits 10 n)

/-- The decimal digits of `n`, after a minus sign if `n` is negative. -/
def ofInt : Int → String
  | .ofNat n => ofNat n
  | .negSucc n => "-" ++ ofNat (n + 1)

/-- The number a nonempty run of the digits `0`–`9` denotes; leading zeros are allowed. -/
def digits? (cs : List Char) : Option Nat :=
  if cs.isEmpty || !cs.all Char.isDigit then none
  else some (cs.foldl (fun n c => 10 * n + (c.toNat - '0'.toNat)) 0)

/-- The number that an optional sign `+` or `-` and decimal digits denote. -/
def signed? : List Char → Option Int
  | '-' :: ds => (digits? ds).map fun n => -n
  | '+' :: ds => (digits? ds).map Int.ofNat
  | ds => (digits? ds).map Int.ofNat

/-- The word for `n`, if `n` lies between the least and the greatest 64-bit number. -/
def fit64? (n : Int) : Option Int64 :=
  if Int64.minValue.toInt ≤ n ∧ n ≤ Int64.maxValue.toInt then some (Int64.ofInt n) else none

/-- Reads an optional sign `+` or `-` and decimal digits, and nothing else, as a 64-bit number. -/
def int64? (s : String) : Option Int64 := (signed? s.toList).bind fit64?

/-! ## Reading what was written -/

theorem digits?_toDigits (n : Nat) : digits? (Nat.toDigits 10 n) = some n := by
  have all : (Nat.toDigits 10 n).all Char.isDigit = true :=
    List.all_eq_true.2 fun c hc => Nat.isDigit_of_mem_toDigits (by decide) (by decide) hc
  have value : (Nat.toDigits 10 n).foldl (fun n c => 10 * n + (c.toNat - '0'.toNat)) 0 = n :=
    Nat.ofDigitChars_toDigits (by decide) (by decide)
  unfold digits?
  rw [value]
  simp [all]

/-- Digits alone are read without a sign. -/
theorem signed?_toDigits (n : Nat) : signed? (Nat.toDigits 10 n) = some (n : Int) := by
  have isDigit : ∀ c ∈ Nat.toDigits 10 n, c.isDigit = true := fun c hc =>
    Nat.isDigit_of_mem_toDigits (by decide) (by decide) hc
  unfold signed?
  split
  · rename_i h
    exact absurd (isDigit '-' (by rw [h]; exact List.mem_cons_self)) (by decide)
  · rename_i h
    exact absurd (isDigit '+' (by rw [h]; exact List.mem_cons_self)) (by decide)
  · rw [digits?_toDigits]
    rfl

theorem signed?_ofInt (n : Int) : signed? (ofInt n).toList = some n := by
  cases n with
  | ofNat m =>
    rw [ofInt, ofNat, String.toList_ofList]
    exact signed?_toDigits m
  | negSucc m =>
    simp [ofInt, ofNat, String.toList_append, signed?, digits?_toDigits, Int.negSucc_eq]

theorem fit64?_toInt (n : Int64) : fit64? n.toInt = some n := by
  unfold fit64?
  rw [if_pos ⟨n.minValue_le_toInt, n.toInt_le⟩, Int64.ofInt_toInt]

/-- What was written is read back. -/
theorem int64?_ofInt (n : Int64) : int64? (ofInt n.toInt) = some n := by
  rw [int64?, signed?_ofInt]
  exact fit64?_toInt n

end KeywordEngine.Text
