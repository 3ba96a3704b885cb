import AttributeAccess.Text.Digits

/-!
# Shortest decimals

A decimal literal denotes the binary64 number nearest to it, and that number is written with the
fewest digits that read back as it; of several such decimals the nearest is taken. Everything is
exact arithmetic on natural numbers: a finite positive binary64 number is `mantissa * 2 ^ scale`.
-/

namespace AttributeAccess

/-- A positive binary64 number, or infinity. -/
inductive Binary64 where
  | finite (mantissa : Nat) (scale : Int)
  | infinite
deriving DecidableEq, Repr

namespace Binary64

/-- The numerator and the denominator of `n * b ^ e`. -/
def scaled (n b : Nat) (e : Int) : Nat × Nat :=
  if 0 ≤ e then (n * b.pow e.toNat, 1) else (n, b.pow (-e).toNat)

/-- The nearest natural number to a quotient; of two, the even one. -/
def roundDiv (num den : Nat) : Nat :=
  let q := num / den
  let r := num % den
  if 2 * r < den then q
  else if den < 2 * r then q + 1
  else if q % 2 = 0 then q else q + 1

/-- The largest `e` with `2 ^ e ≤ num / den`. -/
def log2Div (num den : Nat) : Int :=
  let guess : Int := (num.log2 : Int) - (den.log2 : Int)
  let (n, d) := scaled 1 2 guess
  if n * den ≤ num * d then guess else guess - 1

/-- The nearest number to a positive quotient; of two, the one with an even mantissa. -/
def nearest (num den : Nat) : Binary64 :=
  let scale := max (log2Div num den - 52) (-1074)
  let (n, d) := scaled 1 2 scale
  let mantissa := roundDiv (num * d) (den * n)
  let (mantissa, scale) := if mantissa = Nat.pow 2 53 then (Nat.pow 2 52, scale + 1)
    else (mantissa, scale)
  if 971 < scale then infinite else finite mantissa scale

end Binary64

/-- The decimal `digits * 10 ^ exponent`, with no trailing zero among its digits. -/
structure Decimal where
  digits : Nat
  exponent : Int
deriving DecidableEq, Repr

namespace Decimal

open Binary64

/-- Moves trailing zeros into the exponent; `count` bounds how many. -/
def normalized : (count : Nat) → Nat → Int → Decimal
  | 0, digits, exponent => ⟨digits, exponent⟩
  | count + 1, digits, exponent =>
    if digits % 10 = 0 then normalized count (digits / 10) (exponent + 1) else ⟨digits, exponent⟩

/-- The decimal nearest to `num / den` on the grid of the multiples of `10 ^ exponent` that lies
between the bounds, given in quarters of `2 ^ (scale - 2)`. -/
def onGrid? (mantissa : Nat) (scale exponent : Int) : Option Nat :=
  -- the value and the two ends of the interval of reals that round to it, times four
  let value := 4 * mantissa
  let low := if mantissa = Nat.pow 2 52 ∧ -1074 < scale then value - 1 else value - 2
  let high := value + 2
  let (n2, d2) := scaled 1 2 (scale - 2)
  let (n10, d10) := scaled 1 10 exponent
  -- a multiple `k` of the grid corresponds to `k * unit / per` on the scale of `value`
  let unit := n10 * d2
  let per := d10 * n2
  let below := value * per / unit
  let inside (k : Nat) : Bool :=
    if mantissa % 2 = 0 then low * per ≤ k * unit && k * unit ≤ high * per
    else low * per < k * unit && k * unit < high * per
  let toBelow := value * per - below * unit
  let toAbove := (below + 1) * unit - value * per
  match inside below && below ≠ 0, inside (below + 1) with
  | true, true =>
    if toBelow < toAbove then some below
    else if toAbove < toBelow then some (below + 1)
    else if below % 2 = 0 then some below else some (below + 1)
  | true, false => some below
  | false, true => some (below + 1)
  | false, false => none

/-- The first grid with a hit, from the coarsest on; seventeen digits always suffice. -/
def searchGrid (mantissa : Nat) (scale : Int) : (count : Nat) → (exponent : Int) → Decimal
  | 0, exponent => ⟨0, exponent⟩
  | count + 1, exponent =>
    match onGrid? mantissa scale exponent with
    | some digits => normalized 20 digits exponent
    | none => searchGrid mantissa scale count (exponent - 1)

/-- The largest `e` with `10 ^ e ≤ num / den` among the given one and the `count` below it. -/
def log10Div (num den : Nat) : (count : Nat) → (e : Int) → Int
  | 0, e => e
  | count + 1, e =>
    let (n, d) := scaled 1 10 e
    if n * den ≤ num * d then e else log10Div num den count (e - 1)

/-- The fewest digits that read back as the number, and of those the nearest. -/
def shortest (mantissa : Nat) (scale : Int) : Decimal :=
  let (num, den) := scaled mantissa 2 scale
  -- `2 ^ 10` is a little more than `10 ^ 3`
  let guess := log2Div num den * 30103 / 100000 + 1
  searchGrid mantissa scale 19 (log10Div num den 3 guess)

/-- How a decimal is laid out: positional from `10 ^ -4` up to `10 ^ 16`, with at least one digit
after the point; else with an exponent of at least two digits and its sign. -/
def layout (d : Decimal) : Text :=
  let digits := Digits.ofNat d.digits
  let point : Int := digits.length + d.exponent
  if -4 < point ∧ point ≤ 16 then
    if point ≤ 0 then
      "0.".toText ++ List.replicate (-point).toNat (.char '0') ++ digits
    else if digits.length ≤ point.toNat then
      digits ++ List.replicate (point.toNat - digits.length) (.char '0') ++ ".0".toText
    else
      digits.take point.toNat ++ [.char '.'] ++ digits.drop point.toNat
  else
    let e := point - 1
    let sign := if e < 0 then .char '-' else .char '+'
    let size := Digits.ofNat e.natAbs
    let mantissa := match digits with
      | [] => []
      | [c] => [c]
      | c :: cs => c :: .char '.' :: cs
    mantissa ++ [.char 'e', sign] ++ (if size.length < 2 then .char '0' :: size else size)

/-- The binary64 number that `digits * 10 ^ exponent` denotes, written out again. -/
def rounded (digits : Nat) (exponent : Int) : Text :=
  let point : Int := (Digits.ofNat digits).length + exponent
  if digits = 0 ∨ point < -400 then "0.0".toText
  else if 400 < point then "inf".toText
  else
    let (num, den) := scaled digits 10 exponent
    match nearest num den with
    | .infinite => "inf".toText
    | .finite 0 _ => "0.0".toText
    | .finite mantissa scale => layout (shortest mantissa scale)

end Decimal

end AttributeAccess
