import AttributeAccess.Text.Basic

/-!
# Digits

Numbers in decimal and hexadecimal digits, without leading zeros unless a width asks for them.
An integer is read only if it has at most `Digits.limit` digits.
-/

namespace AttributeAccess

namespace Digits

/-- A digit below sixteen, in lower case. -/
def digit (n : Nat) : CodePoint :=
  .char (if n < 10 then Char.ofNat (48 + n) else Char.ofNat (87 + n))

def ofNat (n : Nat) : Text :=
  if n < 10 then [digit n] else ofNat (n / 10) ++ [digit (n % 10)]

def ofInt : Int → Text
  | .ofNat n => ofNat n
  | .negSucc n => .char '-' :: ofNat (n + 1)

def isDigit (c : CodePoint) : Bool :=
  48 ≤ c.toNat && c.toNat ≤ 57

/-- How many digits an integer may have. -/
def limit : Nat := 4300

/-- The number that a row of digits writes. -/
def toNat (t : Text) : Nat :=
  t.foldl (fun n c => 10 * n + (c.toNat - 48)) 0

end Digits

namespace Hex

/-- The last `width` hexadecimal digits of a number. -/
def padded : (width : Nat) → Nat → Text
  | 0, _ => []
  | width + 1, n => padded width (n / 16) ++ [Digits.digit (n % 16)]

def value? (c : CodePoint) : Option Nat :=
  let n := c.toNat
  if 48 ≤ n ∧ n ≤ 57 then some (n - 48)
  else if 97 ≤ n ∧ n ≤ 102 then some (n - 87)
  else if 65 ≤ n ∧ n ≤ 70 then some (n - 55)
  else none

end Hex

end AttributeAccess
