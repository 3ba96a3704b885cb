import AttributeAccess.Json.Reader
import AttributeAccess.Text.Encoding

/-!
# Payloads

A JSON document arrives as a text or as bytes; a value of any other kind is none. Strict reading
takes UTF-8 without a byte order mark, and texts that UTF-8 can encode, and tells only whether the
payload is JSON; open reading takes any text, detects the encoding of bytes, keeps one member for
each name and says what is wrong.
-/

namespace AttributeAccess

inductive Payload where
  | text (t : Text)
  | bytes (bs : Bytes)
  | foreign (kind : Json.Kind)
deriving DecidableEq, Repr

namespace Payload

/-- Why open reading refused a payload. -/
inductive Fault where
  | encoding (f : DecodingFault)
  | json (f : Json.ReadFault)
  | foreign (kind : Json.Kind)
deriving DecidableEq, Repr

def Fault.message : Fault → Text
  | encoding f => f.message
  | json f => f.message
  | foreign _ => "neither text nor bytes".toText

/-- The nesting up to which strict reading goes. -/
def strictDepth : Nat := 200

/-- The characters of a payload in UTF-8. -/
def chars? : Payload → Option (List Char)
  | text t => t.chars?
  | bytes bs => (Utf8.decode bs).toOption
  | foreign _ => none

def readStrict? (p : Payload) : Option Json :=
  p.chars?.bind fun cs => (Json.read ⟨true, strictDepth⟩ (.ofChars cs)).toOption

/-- The value of a payload that is not nested beyond `depth`. -/
def readOpen (depth : Nat) : Payload → Except Fault Json
  | text t =>
    (Json.readUnmarked ⟨false, depth⟩ t).mapError Fault.json |>.map Json.withoutRepeats
  | bytes bs =>
    match bs.decodeDetected with
    | .error f => .error (.encoding f)
    | .ok t => (Json.read ⟨false, depth⟩ t).mapError Fault.json |>.map Json.withoutRepeats
  | foreign kind => .error (.foreign kind)

end Payload

end AttributeAccess
