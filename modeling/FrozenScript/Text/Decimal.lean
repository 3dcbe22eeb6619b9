/-!
# Decimal numerals

`value` reads a list of digits. `readInt64` and `readUInt8` read a numeral with an optional sign
into a bounded type, and refuse what has no digits, holds anything else, or does not fit.
`readNat?_toDigits` and `readUInt8?_toDigits` say that the numerals themselves are read back.
-/

namespace FrozenScript.Text.Decimal

/-- The value of one decimal digit. -/
def digitValue (c : Char) : Nat :=
  c.toNat - '0'.toNat

/-- The number that a list of decimal digits denotes. -/
def value (digits : List Char) : Nat :=
  digits.foldl (fun total c => 10 * total + digitValue c) 0

/-- Read a non-empty list of decimal digits. -/
def readNat? (digits : List Char) : Option Nat :=
  if digits.isEmpty || !digits.all Char.isDigit then none else some (value digits)

/-- Read a numeral with an optional sign. -/
def readInt? : List Char → Option Int
  | '-' :: digits => (readNat? digits).map fun n => -(n : Int)
  | '+' :: digits => (readNat? digits).map Int.ofNat
  | digits => (readNat? digits).map Int.ofNat

/-- The signed 64-bit word of an integer, if it fits. -/
def toInt64? (n : Int) : Option Int64 :=
  if Int64.minValue.toInt ≤ n ∧ n ≤ Int64.maxValue.toInt then some (Int64.ofInt n) else none

/-- Read a signed 64-bit word. -/
def readInt64? (text : List Char) : Option Int64 :=
  readInt? text >>= toInt64?

/-- Read a byte. A plus sign is allowed, a minus sign is not, not even before zero. -/
def readUInt8? (text : List Char) : Option UInt8 :=
  let digits := match text with
    | '+' :: digits => digits
    | digits => digits
  (readNat? digits).bind fun n => if n < 256 then some (UInt8.ofNat n) else none

/-- The value of the numeral of a number is that number. -/
theorem value_toDigits (n : Nat) : value (Nat.toDigits 10 n) = n := by
  have h := Nat.ofDigitChars_ten_toDigits (n := n)
  rwa [Nat.ofDigitChars_eq_foldl] at h

/-- The digits of a numeral are digits. -/
theorem isDigit_of_mem_toDigits {n : Nat} {c : Char} (h : c ∈ Nat.toDigits 10 n) :
    c.isDigit = true :=
  Nat.isDigit_of_mem_toDigits (by decide) (by decide) h

/-- A number is read back from its numeral. -/
theorem readNat?_toDigits (n : Nat) : readNat? (Nat.toDigits 10 n) = some n := by
  have hall : (Nat.toDigits 10 n).all Char.isDigit = true :=
    List.all_eq_true.mpr fun _ => isDigit_of_mem_toDigits
  have hsome : (Nat.toDigits 10 n).isEmpty = false := by simp
  rw [readNat?, hsome, hall, value_toDigits]
  rfl

/-- A byte is read back from its numeral. -/
theorem readUInt8?_toDigits (byte : UInt8) :
    readUInt8? (Nat.toDigits 10 byte.toNat) = some byte := by
  have hread : readUInt8? (Nat.toDigits 10 byte.toNat) =
      (readNat? (Nat.toDigits 10 byte.toNat)).bind fun n =>
        if n < 256 then some (UInt8.ofNat n) else none := by
    unfold readUInt8?
    split
    next digits hplus =>
      -- A numeral does not start with a sign.
      have hsign : '+' ∈ Nat.toDigits 10 byte.toNat := hplus ▸ List.mem_cons_self
      exact absurd (isDigit_of_mem_toDigits hsign) (by decide)
    next => rfl
  rw [hread, readNat?_toDigits, Option.bind_some, if_pos byte.toNat_lt, UInt8.ofNat_toNat]

/-- The numeral of a signed 64-bit word. -/
def ofInt64 (n : Int64) : String :=
  toString n.toInt

end FrozenScript.Text.Decimal
