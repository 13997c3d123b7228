import PseudoBoolean.Word

/-!
Decimal numerals of words.

A numeral is an optional sign and at least one ASCII digit; leading zeros are allowed, and the
number must fit the word that is read. An unsigned numeral may carry a plus but no minus.
-/

namespace PseudoBoolean.Decimal

/-- The numeral of an integer, with a minus if it is negative. -/
def ofInt (n : Int) : String := toString n

/-- The numeral of an integer with an explicit sign, a plus for zero. -/
def signed (n : Int) : String := (if 0 ≤ n then "+" else "") ++ toString n

/-- The number of a run of digits. -/
def natural? (ds : List Char) : Option Nat :=
  if ds ≠ [] ∧ ds.all Char.isDigit then some (Nat.ofDigitChars 10 ds 0) else none

/-- The number of an optional sign and digits. -/
def integer? : List Char → Option Int
  | '-' :: ds => (natural? ds).map fun n => -(n : Int)
  | '+' :: ds => (natural? ds).map Int.ofNat
  | ds => (natural? ds).map Int.ofNat

/-- The number of an optional plus and digits. -/
def unsigned? : List Char → Option Nat
  | '+' :: ds => natural? ds
  | ds => natural? ds

/-- The 64-bit signed word that a numeral stands for. -/
def int64? (numeral : String) : Option Int64 :=
  (integer? numeral.toList).bind fun n => if Word.Fits n then some (Int64.ofInt n) else none

/-- The 32-bit signed word that a numeral stands for. -/
def int32? (numeral : String) : Option Int32 :=
  (integer? numeral.toList).bind fun n =>
    if -0x80000000 ≤ n ∧ n < 0x80000000 then some (Int32.ofInt n) else none

/-- The 32-bit unsigned word that a numeral stands for. -/
def uint32? (numeral : String) : Option UInt32 :=
  (unsigned? numeral.toList).bind fun n => if n < 0x100000000 then some (UInt32.ofNat n) else none

end PseudoBoolean.Decimal
