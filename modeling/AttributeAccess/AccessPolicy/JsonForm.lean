import AttributeAccess.AccessPolicy.Basic
import AttributeAccess.Fault
import AttributeAccess.Json.Writer

/-!
# The JSON form of access policies

A node is an object with one member that names its kind, or the text `All`. A literal holds the
text of its attribute, a connective the array of its two operands.
-/

namespace AttributeAccess.AccessPolicy

def allTag : Text := "All".toText

def attrTag : Text := "Attr".toText

def andTag : Text := "And".toText

def orTag : Text := "Or".toText

def toJson : AccessPolicy → Json
  | all => .string allTag
  | attr a => .object [(attrTag, .string a.text)]
  | and l r => .object [(andTag, .array [l.toJson, r.toJson])]
  | or l r => .object [(orTag, .array [l.toJson, r.toJson])]

/-- The JSON text of a policy that is not nested beyond `limit`. -/
def encodeWithin (limit : Nat) (t : AccessPolicy) : Except Fault Text :=
  if t.height ≤ limit then .ok t.toJson.compact else .error (.expression .encodedTooDeep)

def encode (t : AccessPolicy) : Except Fault Text :=
  t.encodeWithin nestingLimit

def ofJson : Json → Except Fault AccessPolicy
  | .object [(tag, v)] =>
    if tag = attrTag then
      match v with
      | .string t => (Attribute.ofText t).map attr
      | v => .error (.attributeNotText v)
    else if tag = andTag ∨ tag = orTag then
      match v with
      | .array [l, r] => do
        let l ← ofJson l
        let r ← ofJson r
        .ok (if tag = andTag then and l r else or l r)
      | v => .error (.expression (.operandCount tag v))
    else .error (.expression (.unknownNode tag))
  | .string t => if t = allTag then .ok all else .error (.expression (.unexpectedNode (.string t)))
  | v => .error (.expression (.unexpectedNode v))

/-- The policy in a JSON text whose arrays and objects are not nested beyond `limit`. -/
def decodeWithin (limit : Nat) (p : Payload) : Except Fault AccessPolicy :=
  match p.readOpen limit with
  | .error cause => .error (.expression (.unreadable cause))
  | .ok v => ofJson v

def decode (p : Payload) : Except Fault AccessPolicy :=
  decodeWithin nestingLimit p

end AttributeAccess.AccessPolicy
