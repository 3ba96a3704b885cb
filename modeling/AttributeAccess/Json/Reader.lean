import AttributeAccess.Json.Basic
import AttributeAccess.Text.Encoding

/-!
# Reading JSON

The reader takes one value and nothing but blanks around it. Besides the numbers of the JSON
grammar it takes `NaN`, `Infinity` and `-Infinity`. A refused text is blamed at one position,
with its line and column; a number ends where it can, so what follows it is blamed instead.
Numbers with too many digits and values nested too deeply are refused without a position.

Strict reading limits the digits before the point or the exponent of a decimal like those of an
integer, and it refuses the escape of a lone surrogate, which open reading takes as it is.

Inside, every step takes the rest of the text and returns what is left of it.
-/

namespace AttributeAccess.Json

inductive ReadCause where
  | value
  | name
  | colon
  | comma
  | extra
  | unterminated
  | escape
  | hexEscape
  | control
  | loneSurrogate
  | nestedArray
  | nestedObject
  | tooManyDigits (count : Nat)
  | byteOrderMark
deriving DecidableEq, Repr

def ReadCause.message : ReadCause → Text
  | value => "Expecting value".toText
  | name => "Expecting property name enclosed in double quotes".toText
  | colon => "Expecting ':' delimiter".toText
  | comma => "Expecting ',' delimiter".toText
  | extra => "Extra data".toText
  | unterminated => "Unterminated string starting at".toText
  | escape => "Invalid \\escape".toText
  | hexEscape => "Invalid \\uXXXX escape".toText
  | control => "Invalid control character at".toText
  | loneSurrogate => "Lone surrogate escape".toText
  | nestedArray => "maximum recursion depth exceeded while decoding a JSON array ".toText ++
      "from a unicode string".toText
  | nestedObject => "maximum recursion depth exceeded while decoding a JSON object ".toText ++
      "from a unicode string".toText
  | tooManyDigits count => "Exceeds the limit (".toText ++ Digits.ofNat Digits.limit ++
      " digits) for integer string conversion: value has ".toText ++ Digits.ofNat count ++
      " digits; use sys.set_int_max_str_digits() to increase the limit".toText
  | byteOrderMark => "Unexpected UTF-8 BOM (decode using utf-8-sig)".toText

/-- Whether a refusal for this cause names a position. -/
def ReadCause.hasPlace : ReadCause → Bool
  | nestedArray | nestedObject | tooManyDigits _ => false
  | _ => true

/-- Reading stopped with `rest` still unread. -/
structure Stop where
  cause : ReadCause
  rest : Text
deriving DecidableEq, Repr

def isSpace (c : CodePoint) : Bool :=
  c == .char ' ' || c == .char '\t' || c == .char '\n' || c == .char '\r'

def skipSpace (t : Text) : Text :=
  t.dropWhile isSpace

/-! ## Strings -/

/-- Four hexadecimal digits at the front. -/
def hex4? : Text → Option (Nat × Text)
  | a :: b :: c :: d :: t =>
    match Hex.value? a, Hex.value? b, Hex.value? c, Hex.value? d with
    | some a, some b, some c, some d => some (4096 * a + 256 * b + 16 * c + d, t)
    | _, _, _, _ => none
  | _ => none

def escaped? (c : CodePoint) : Option CodePoint :=
  match c with
  | .char '"' => some (.char '"')
  | .char '\\' => some (.char '\\')
  | .char '/' => some (.char '/')
  | .char 'b' => some (.char '\x08')
  | .char 'f' => some (.char '\x0c')
  | .char 'n' => some (.char '\n')
  | .char 'r' => some (.char '\r')
  | .char 't' => some (.char '\t')
  | _ => none

/-- The lone surrogate with the number `n`, in front of `t`. -/
def loneSurrogate (strict : Bool) (n : Nat) (t : Text) : Except Stop (CodePoint × Text) :=
  if strict then .error ⟨.loneSurrogate, t⟩ else .ok (.ofNat n, t)

/-- The character that follows `\u`; two escapes make one character of a surrogate pair. At least
one character has to follow the digits. -/
def hexEscape (strict : Bool) (t : Text) : Except Stop (CodePoint × Text) :=
  let here : Stop := ⟨.hexEscape, .char 'u' :: t⟩
  if (t.drop 4).isEmpty then .error here
  else
    match hex4? t with
    | none => .error here
    | some (n, t) =>
      if n < 0xD800 ∨ 0xDFFF < n then .ok (.ofNat n, t)
      else
        match t with
        | .char '\\' :: .char 'u' :: t' =>
          if 0xDC00 ≤ n then loneSurrogate strict n t
          else if (t'.drop 4).isEmpty then .error ⟨.hexEscape, .char 'u' :: t'⟩
          else
            match hex4? t' with
            | none => .error ⟨.hexEscape, .char 'u' :: t'⟩
            | some (m, t') =>
              if 0xDC00 ≤ m ∧ m ≤ 0xDFFF then
                .ok (Encoding.pairOf n m, t')
              else loneSurrogate strict n t
        | _ => loneSurrogate strict n t

/-- The rest of a string after its opening quote; `start` is the text from that quote on. -/
def stringBody (strict : Bool) (start : Text) : (fuel : Nat) → Text → Except Stop (Text × Text)
  | 0, _ => .error ⟨.unterminated, start⟩
  | fuel + 1, t =>
    match t with
    | [] => .error ⟨.unterminated, start⟩
    | .char '"' :: t => .ok ([], t)
    | [.char '\\'] => .error ⟨.unterminated, start⟩
    | .char '\\' :: .char 'u' :: t => do
      let (c, t) ← hexEscape strict t
      let (cs, t) ← stringBody strict start fuel t
      .ok (c :: cs, t)
    | .char '\\' :: e :: t =>
      match escaped? e with
      | none => .error ⟨.escape, .char '\\' :: e :: t⟩
      | some c => do
        let (cs, t) ← stringBody strict start fuel t
        .ok (c :: cs, t)
    | c :: t =>
      if c.toNat < 0x20 then .error ⟨.control, c :: t⟩
      else do
        let (cs, t) ← stringBody strict start fuel t
        .ok (c :: cs, t)

/-- A string, from its opening quote on. -/
def stringAt (strict : Bool) (fuel : Nat) (t : Text) : Except Stop (Text × Text) :=
  stringBody strict t fuel t.tail

/-! ## Numbers -/

/-- The longest row of digits at the front. -/
def digitsAt (t : Text) : Text × Text :=
  (t.takeWhile Digits.isDigit, t.dropWhile Digits.isDigit)

/-- Digits without a leading zero, unless zero is the only one. -/
def wholeAt? (t : Text) : Option (Text × Text) :=
  match t with
  | .char '0' :: t => some ([.char '0'], t)
  | _ =>
    match digitsAt t with
    | ([], _) => none
    | (ds, t) => some (ds, t)

/-- A point and at least one digit, or nothing. -/
def fractionAt (t : Text) : Text × Text :=
  match t with
  | .char '.' :: t' =>
    match digitsAt t' with
    | ([], _) => ([], t)
    | (ds, t') => (ds, t')
  | _ => ([], t)

/-- An exponent mark, an optional sign and at least one digit, or nothing. -/
def exponentAt (t : Text) : Option Int × Text :=
  match t with
  | e :: t' =>
    if e = .char 'e' ∨ e = .char 'E' then
      let (negative, t'') := match t' with
        | .char '-' :: t'' => (true, t'')
        | .char '+' :: t'' => (false, t'')
        | _ => (false, t')
      match digitsAt t'' with
      | ([], _) => (none, t)
      | (ds, t'') =>
        let n : Int := Digits.toNat ds
        (some (if negative then -n else n), t'')
    else (none, t)
  | [] => (none, t)

/-- A number without its sign. The digits of an integer are limited, and those before the point
or the exponent of a decimal if reading is strict. -/
def magnitudeAt (strict negative : Bool) (t : Text) : Except ReadCause (Number × Text) :=
  match wholeAt? t with
  | none => .error .value
  | some (whole, t) =>
    let (fraction, t) := fractionAt t
    let (exponent, t) := exponentAt t
    let isInteger := fraction.isEmpty && exponent.isNone
    if Digits.limit < whole.length && (isInteger || strict) then
      .error (.tooManyDigits whole.length)
    else if isInteger then
      let n : Int := Digits.toNat whole
      .ok (.integer (if negative then -n else n), t)
    else
      .ok (.decimal negative (Digits.toNat (whole ++ fraction))
        (exponent.getD 0 - fraction.length), t)

def numberAt (strict : Bool) (t : Text) : Except ReadCause (Number × Text) :=
  match t with
  | .char '-' :: t =>
    match "Infinity".toText.isPrefixOf? t with
    | some t => .ok (.infinite true, t)
    | none => magnitudeAt strict true t
  | _ => magnitudeAt strict false t

/-- The values that are written as a word. -/
def words : List (Text × Json) :=
  [("null".toText, null), ("true".toText, bool true), ("false".toText, bool false),
    ("NaN".toText, number .notANumber), ("Infinity".toText, number (.infinite false))]

/-- The first of the words that the text starts with. -/
def wordIn? : List (Text × Json) → Text → Option (Json × Text)
  | [], _ => none
  | (w, v) :: ws, t =>
    match w.isPrefixOf? t with
    | some t => some (v, t)
    | none => wordIn? ws t

def scalarAt (strict : Bool) (t : Text) : Except Stop (Json × Text) :=
  match wordIn? words t with
  | some r => .ok r
  | none =>
    match numberAt strict t with
    | .ok (n, t) => .ok (number n, t)
    | .error cause => .error ⟨cause, t⟩

/-! ## Values -/

mutual

/-- A value at the front. `depth` counts the arrays and objects with content that may still be
opened around it; `fuel` bounds the steps, of which each character takes two at most. -/
def valueAt (strict : Bool) : (fuel depth : Nat) → Text → Except Stop (Json × Text)
  | 0, _, t => .error ⟨.value, t⟩
  | fuel + 1, depth, t =>
    match t with
    | .char '"' :: _ => do
      let (s, t) ← stringAt strict fuel t
      .ok (string s, t)
    | .char '[' :: t =>
      match skipSpace t with
      | .char ']' :: t => .ok (array [], t)
      | t =>
        match depth with
        | 0 => .error ⟨.nestedArray, t⟩
        | depth + 1 => do
          let (vs, t) ← itemsAt strict fuel depth t
          .ok (array vs, t)
    | .char '\x7b' :: t =>
      match skipSpace t with
      | .char '\x7d' :: t => .ok (object [], t)
      | t =>
        match depth with
        | 0 => .error ⟨.nestedObject, t⟩
        | depth + 1 => do
          let (ms, t) ← membersAt strict fuel depth t
          .ok (object ms, t)
    | _ => scalarAt strict t

def itemsAt (strict : Bool) : (fuel depth : Nat) → Text → Except Stop (List Json × Text)
  | 0, _, t => .error ⟨.value, t⟩
  | fuel + 1, depth, t => do
    let (v, t) ← valueAt strict fuel depth t
    match skipSpace t with
    | .char ']' :: t => .ok ([v], t)
    | .char ',' :: t => do
      let (vs, t) ← itemsAt strict fuel depth (skipSpace t)
      .ok (v :: vs, t)
    | t => .error ⟨.comma, t⟩

def membersAt (strict : Bool) :
    (fuel depth : Nat) → Text → Except Stop (List (Text × Json) × Text)
  | 0, _, t => .error ⟨.name, t⟩
  | fuel + 1, depth, t =>
    match t with
    | .char '"' :: _ => do
      let (name, t) ← stringAt strict fuel t
      match skipSpace t with
      | .char ':' :: t => do
        let (v, t) ← valueAt strict fuel depth (skipSpace t)
        match skipSpace t with
        | .char '\x7d' :: t => .ok ([(name, v)], t)
        | .char ',' :: t => do
          let (ms, t) ← membersAt strict fuel depth (skipSpace t)
          .ok ((name, v) :: ms, t)
        | t => .error ⟨.comma, t⟩
      | t => .error ⟨.colon, t⟩
    | _ => .error ⟨.name, t⟩

end

/-- Whether reading is strict, and how many arrays and objects may be open at once. -/
structure Manner where
  strict : Bool
  depth : Nat
deriving DecidableEq, Repr

/-- The value that is the whole text. -/
def valueOf (manner : Manner) (t : Text) : Except Stop Json :=
  match valueAt manner.strict (2 * t.length + 1) manner.depth (skipSpace t) with
  | .error e => .error e
  | .ok (v, rest) =>
    match skipSpace rest with
    | [] => .ok v
    | rest => .error ⟨.extra, rest⟩

/-! ## Faults with their place -/

/-- What stopped the reading of a text, where, and at which line and column. -/
structure ReadFault where
  cause : ReadCause
  position : Nat
  line : Nat
  column : Nat
deriving DecidableEq, Repr

def ReadFault.place (f : ReadFault) : Text :=
  ": line ".toText ++ Digits.ofNat f.line ++ " column ".toText ++ Digits.ofNat f.column ++
    " (char ".toText ++ Digits.ofNat f.position ++ [.char ')']

def ReadFault.message (f : ReadFault) : Text :=
  f.cause.message ++ if f.cause.hasPlace then f.place else []

/-- Lines end at a line feed; lines and columns count from one. -/
def ReadFault.at (cause : ReadCause) (t : Text) (position : Nat) : ReadFault :=
  let before := t.take position
  ⟨cause, position, before.count (.char '\n') + 1,
    (before.reverse.takeWhile (· ≠ .char '\n')).length + 1⟩

def read (manner : Manner) (t : Text) : Except ReadFault Json :=
  match valueOf manner t with
  | .ok v => .ok v
  | .error stop => .error (ReadFault.at stop.cause t (t.length - stop.rest.length))

/-- Like `read`, but a byte order mark in front is refused as such. -/
def readUnmarked (manner : Manner) (t : Text) : Except ReadFault Json :=
  match t with
  | .char '\ufeff' :: _ => .error (ReadFault.at .byteOrderMark t 0)
  | _ => read manner t

end AttributeAccess.Json
