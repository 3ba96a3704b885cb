import AttributeAccess.Text.Utf8

/-!
# Encodings of a JSON text

A JSON text in bytes is UTF-8, UTF-16 or UTF-32. A byte order mark decides; without one, the
places of the zero bytes among the first four do, since a JSON text starts with two ASCII
characters. A surrogate without a partner is read as it is, from whichever encoding.
-/

namespace AttributeAccess

namespace Encoding

/-- The encoding, and the length of the byte order mark if there is one. -/
def detect : Bytes → Encoding × Nat
  | 0x00 :: 0x00 :: 0xFE :: 0xFF :: _ => (utf32Big, 4)
  | 0xFF :: 0xFE :: 0x00 :: 0x00 :: _ => (utf32Little, 4)
  | 0xFE :: 0xFF :: _ => (utf16Big, 2)
  | 0xFF :: 0xFE :: _ => (utf16Little, 2)
  | 0xEF :: 0xBB :: 0xBF :: _ => (utf8, 3)
  | a :: b :: c :: d :: _ =>
    if a = 0 then (if b = 0 then utf32Big else utf16Big, 0)
    else if b = 0 then (if c = 0 ∧ d = 0 then utf32Little else utf16Little, 0)
    else (utf8, 0)
  | [a, b] => (if a = 0 then utf16Big else if b = 0 then utf16Little else utf8, 0)
  | _ => (utf8, 0)

/-- Two bytes as one unit of UTF-16. -/
def unit16 (big : Bool) (a b : UInt8) : Nat :=
  if big then 256 * a.toNat + b.toNat else 256 * b.toNat + a.toNat

/-- The character that a pair of surrogates stands for. -/
def pairOf (high low : Nat) : CodePoint :=
  .ofNat (0x10000 + 0x400 * (high - 0xD800) + (low - 0xDC00))

def decode16 (big : Bool) (position : Nat) : Bytes → Except DecodingFault Text
  | [] => .ok []
  | [a] => .error ⟨if big then utf16Big else utf16Little, .truncated, a, position, 1⟩
  | a :: b :: bs =>
    let n := unit16 big a b
    match bs with
    | c :: d :: rest =>
      let m := unit16 big c d
      if 0xD800 ≤ n ∧ n < 0xDC00 ∧ 0xDC00 ≤ m ∧ m ≤ 0xDFFF then
        (decode16 big (position + 4) rest).map (pairOf n m :: ·)
      else (decode16 big (position + 2) (c :: d :: rest)).map (.ofNat n :: ·)
    | rest => (decode16 big (position + 2) rest).map (.ofNat n :: ·)

def decode32 (big : Bool) (position : Nat) : Bytes → Except DecodingFault Text
  | [] => .ok []
  | a :: b :: c :: d :: bs =>
    let n :=
      if big then 0x10000 * unit16 true a b + unit16 true c d
      else 0x10000 * unit16 false c d + unit16 false a b
    if 0x110000 ≤ n then .error ⟨encoding, .outOfRange, a, position, 4⟩
    else (decode32 big (position + 4) bs).map (.ofNat n :: ·)
  | a :: bs => .error ⟨encoding, .truncated, a, position, bs.length + 1⟩
where
  encoding := if big then utf32Big else utf32Little

/-! ## Surrogates in UTF-8 -/

/-- The surrogate that three bytes at the front stand for. -/
def surrogateAt? : Bytes → Option CodePoint
  | 0xED :: b :: c :: _ =>
    if 0xA0 ≤ b ∧ b ≤ 0xBF ∧ 0x80 ≤ c ∧ c ≤ 0xBF then
      some (.ofNat (0xD000 + 0x40 * (b.toNat - 0x80) + (c.toNat - 0x80)))
    else none
  | _ => none

/-- The three bytes of a surrogate as the three of the replacement character. -/
def replaceSurrogates : Bytes → Bytes
  | a :: b :: c :: bs =>
    if (surrogateAt? (a :: b :: c :: bs)).isSome then
      0xEF :: 0xBF :: 0xBD :: replaceSurrogates bs
    else a :: replaceSurrogates (b :: c :: bs)
  | bs => bs

/-- The surrogates of some bytes in the places of the characters that were read for them. -/
def restoreSurrogates : Bytes → List Char → Text
  | _, [] => []
  | bs, c :: cs =>
    (surrogateAt? bs).getD (.char c) ::
      restoreSurrogates (bs.drop (String.utf8EncodeChar c).length) cs

/-- UTF-8 that may hold surrogates. -/
def decode8 (bs : Bytes) : Except DecodingFault Text :=
  (Utf8.decode (replaceSurrogates bs)).map (restoreSurrogates bs)

/-- Positions in a fault count a UTF-16 or UTF-32 byte order mark and leave out a UTF-8 one. -/
def decodeAs (encoding : Encoding) (mark : Nat) (bs : Bytes) : Except DecodingFault Text :=
  match encoding with
  | utf8 => decode8 (bs.drop mark)
  | utf16Little => decode16 false mark (bs.drop mark)
  | utf16Big => decode16 true mark (bs.drop mark)
  | utf32Little => decode32 false mark (bs.drop mark)
  | utf32Big => decode32 true mark (bs.drop mark)

end Encoding

/-- The text in the encoding that its bytes show. -/
def Bytes.decodeDetected (bs : Bytes) : Except DecodingFault Text :=
  let (encoding, mark) := Encoding.detect bs
  encoding.decodeAs mark bs

end AttributeAccess
