/-!
# Code points

A code point is a character or a surrogate. A surrogate is half of a pair that stands for one
character in UTF-16; alone it stands for none, and no bytes of UTF-8 encode it. Code points are
ordered by their numbers.
-/

namespace AttributeAccess

inductive CodePoint where
  | char (c : Char)
  /-- The surrogate with the number `0xD800 + offset`. -/
  | surrogate (offset : Fin 0x800)
deriving DecidableEq, Repr, Inhabited

namespace CodePoint

def toNat : CodePoint → Nat
  | char c => c.toNat
  | surrogate offset => 0xD800 + offset

/-- The code point with a number below `0x110000`. -/
def ofNat (n : Nat) : CodePoint :=
  if h : 0xD800 ≤ n ∧ n ≤ 0xDFFF then surrogate ⟨n - 0xD800, by omega⟩ else char (Char.ofNat n)

/-- The character, if there is one. -/
def char? : CodePoint → Option Char
  | char c => some c
  | surrogate _ => none

def isSurrogate : CodePoint → Bool
  | char _ => false
  | surrogate _ => true

/-- The lower case of an ASCII letter. -/
def toLower : CodePoint → CodePoint
  | char c => char c.toLower
  | surrogate offset => surrogate offset

instance : LT CodePoint := ⟨fun a b => a.toNat < b.toNat⟩

instance : DecidableLT CodePoint := fun a b => inferInstanceAs (Decidable (a.toNat < b.toNat))

end CodePoint

end AttributeAccess
