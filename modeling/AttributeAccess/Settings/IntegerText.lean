import AttributeAccess.Text.Blank
import AttributeAccess.Text.Digits

/-!
# Integers in a variable

An integer stands between white space. After an optional sign the zeros in front are passed over,
with the underscores among them; a fraction of zeros is dropped, and underscores that stand one
by one between digits are removed. What is left has to be a sign and digits. A minus behind the
zeros counts as the sign.
-/

namespace AttributeAccess.IntegerText

/-- Why a text is read as no integer. -/
inductive Cause where
  | malformed
  | tooLong
deriving DecidableEq, Repr

/-! ## Zeros, fraction, underscores -/

/-- What follows `last`, a zero or an underscore, and those after it. A point keeps the last of
them in front, and at the end of the text the last of them is all there is. -/
def afterZeros? (last : CodePoint) : Text → Option Text
  | [] => some [last]
  | c :: t =>
    if c = .char '0' ∨ c = .char '_' then afterZeros? c t
    else if c = .char '-' ∨ Digits.isDigit c then some (c :: t)
    else if c = .char '.' then some (last :: c :: t)
    else none

def withoutZeros? : Text → Option Text
  | [] => none
  | c :: t =>
    if c = .char '0' then afterZeros? c t else if Digits.isDigit c then some (c :: t) else none

/-- A text without the point and the zeros that it ends in. -/
def withoutFraction (t : Text) : Text :=
  match Text.cut? [.char '.'] t with
  | some (whole, fraction) =>
    if !fraction.isEmpty && fraction.all (· == .char '0') then whole else t
  | none => t

/-- A text without its underscores, if they stand one by one inside it. -/
def withoutUnderscores (t : Text) : Text :=
  if t.head? = some (.char '_') ∨ t.getLast? = some (.char '_') ∨
    Text.occursIn [.char '_', .char '_'] t then t
  else t.filter (· ≠ .char '_')

/-! ## Digits -/

/-- Digits without a zero in front, or zero alone. What follows too many digits is not looked
at. -/
def magnitude : Text → Except Cause Nat
  | [] => .error .malformed
  | c :: t =>
    let ds := (c :: t).takeWhile Digits.isDigit
    if c = .char '0' then (if t.isEmpty then .ok 0 else .error .malformed)
    else if Digits.limit < ds.length then .error .tooLong
    else if ds = c :: t then .ok (Digits.toNat ds)
    else .error .malformed

def signed : Text → Except Cause Int
  | .char '-' :: t => (magnitude t).map fun n => -(n : Int)
  | t => (magnitude t).map Int.ofNat

/-! ## Reading -/

def read (t : Text) : Except Cause Int :=
  let t := Text.dropEndWhile isWhiteSpace (t.dropWhile isWhiteSpace)
  let (sign, t) := match t with
    | .char '+' :: t => ([], t)
    | .char '-' :: t => ([.char '-'], t)
    | t => ([], t)
  match withoutZeros? t with
  | none => .error .malformed
  | some t => signed (sign ++ withoutUnderscores (withoutFraction t))

end AttributeAccess.IntegerText
