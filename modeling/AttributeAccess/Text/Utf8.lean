import AttributeAccess.Text.Digits
import AttributeAccess.Text.WellFormed

/-!
# UTF-8

`Utf8.encode` writes characters as bytes, `Utf8.decode` reads bytes back or says which bytes are at
fault. A fault covers the bytes that begin a character up to the first byte that cannot
continue it. A text is encoded if it is well-formed (`Text.encode?`).
-/

namespace AttributeAccess

abbrev Bytes := List UInt8

inductive Encoding where
  | utf8
  | utf16Little
  | utf16Big
  | utf32Little
  | utf32Big
deriving DecidableEq, Repr

def Encoding.name : Encoding → Text
  | utf8 => "utf-8".toText
  | utf16Little => "utf-16-le".toText
  | utf16Big => "utf-16-be".toText
  | utf32Little => "utf-32-le".toText
  | utf32Big => "utf-32-be".toText

inductive DecodingCause where
  | invalidStart
  | invalidContinuation
  | unexpectedEnd
  | truncated
  | outOfRange
deriving DecidableEq, Repr

def DecodingCause.message : DecodingCause → Text
  | invalidStart => "invalid start byte".toText
  | invalidContinuation => "invalid continuation byte".toText
  | unexpectedEnd => "unexpected end of data".toText
  | truncated => "truncated data".toText
  | outOfRange => "code point not in range(0x110000)".toText

/-- The bytes at `start`, `start + 1`, …, `start + count - 1` do not decode. -/
structure DecodingFault where
  encoding : Encoding
  cause : DecodingCause
  first : UInt8
  start : Nat
  count : Nat
deriving DecidableEq, Repr

def DecodingFault.message (f : DecodingFault) : Text :=
  let place :=
    if f.count = 1 then
      "byte 0x".toText ++ Hex.padded 2 f.first.toNat ++ " in position ".toText ++
        Digits.ofNat f.start
    else
      "bytes in position ".toText ++ Digits.ofNat f.start ++ [.char '-'] ++
        Digits.ofNat (f.start + f.count - 1)
  [.char '\''] ++ f.encoding.name ++ "' codec can't decode ".toText ++ place ++ ": ".toText ++
    f.cause.message

namespace Utf8

def encode (cs : List Char) : Bytes :=
  cs.flatMap String.utf8EncodeChar

/-- A character that has begun: its bits so far, the continuation bytes still owed and the range
of the next of them. -/
structure Pending where
  first : UInt8
  start : Nat
  bits : Nat
  owed : Nat
  low : Nat
  high : Nat
deriving DecidableEq, Repr

/-- What a byte above the ASCII range begins. -/
def begin? (start : Nat) (first : UInt8) : Option Pending :=
  let b := first.toNat
  if 0xC2 ≤ b ∧ b ≤ 0xDF then some ⟨first, start, b - 0xC0, 1, 0x80, 0xBF⟩
  else if b = 0xE0 then some ⟨first, start, 0, 2, 0xA0, 0xBF⟩
  else if b = 0xED then some ⟨first, start, 0xD, 2, 0x80, 0x9F⟩
  else if 0xE1 ≤ b ∧ b ≤ 0xEF then some ⟨first, start, b - 0xE0, 2, 0x80, 0xBF⟩
  else if b = 0xF0 then some ⟨first, start, 0, 3, 0x90, 0xBF⟩
  else if 0xF1 ≤ b ∧ b ≤ 0xF3 then some ⟨first, start, b - 0xF0, 3, 0x80, 0xBF⟩
  else if b = 0xF4 then some ⟨first, start, 4, 3, 0x80, 0x8F⟩
  else none

def Pending.fault (p : Pending) (cause : DecodingCause) (position : Nat) : DecodingFault :=
  ⟨.utf8, cause, p.first, p.start, position - p.start⟩

def decodeFrom (position : Nat) : Option Pending → Bytes → Except DecodingFault (List Char)
  | none, [] => .ok []
  | some p, [] => .error (p.fault .unexpectedEnd position)
  | none, b :: bs =>
    if b.toNat < 0x80 then
      (decodeFrom (position + 1) none bs).map (Char.ofNat b.toNat :: ·)
    else
      match begin? position b with
      | none => .error ⟨.utf8, .invalidStart, b, position, 1⟩
      | some p => decodeFrom (position + 1) (some p) bs
  | some p, b :: bs =>
    if p.low ≤ b.toNat ∧ b.toNat ≤ p.high then
      let bits := 64 * p.bits + (b.toNat - 0x80)
      if p.owed ≤ 1 then
        (decodeFrom (position + 1) none bs).map (Char.ofNat bits :: ·)
      else
        decodeFrom (position + 1) (some ⟨p.first, p.start, bits, p.owed - 1, 0x80, 0xBF⟩) bs
    else .error (p.fault .invalidContinuation position)

def decode (bs : Bytes) : Except DecodingFault (List Char) :=
  decodeFrom 0 none bs

end Utf8

/-- The bytes of a text, which a surrogate does not have. -/
def Text.encode? (t : Text) : Option Bytes :=
  t.chars?.map Utf8.encode

end AttributeAccess
