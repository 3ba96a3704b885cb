import AttributeAccess.Json.Basic

/-!
# Misuse

A host may hand over a JSON value of any kind. Where an operation has no use for the kind that it
gets, a misuse says what the value cannot do.
-/

namespace AttributeAccess

/-- A value of the given kind has no order among numbers, no items, no length, no parts around a
mark or nothing to search for. -/
inductive Misuse where
  | unordered (kind : Json.Kind)
  | withoutItems (kind : Json.Kind)
  | withoutLength (kind : Json.Kind)
  | withoutParts (kind : Json.Kind)
  | unsearchable (kind : Json.Kind)
deriving DecidableEq, Repr

namespace Json

/-- The items of an array, the characters of a text or the names of an object. -/
def elements : Json → Except Misuse (List Json)
  | array items => .ok items
  | string t => .ok (t.map fun c => string [c])
  | object members => .ok ((OrderedMap.ofList members).keys.map string)
  | v => .error (.withoutItems v.kind)

/-- The number of elements. -/
def length (v : Json) : Except Misuse Nat :=
  match v.elements with
  | .ok items => .ok items.length
  | .error _ => .error (.withoutLength v.kind)

/-- A text, which alone has parts. -/
def asText : Json → Except Misuse Text
  | string t => .ok t
  | v => .error (.withoutParts v.kind)

/-- Whether a value says nothing: null, false, zero, or without elements. -/
def isVoid : Json → Bool
  | null => true
  | bool b => !b
  | number (.integer n) => n == 0
  | number (.decimal _ digits _) => digits == 0
  | number _ => false
  | string t => t.isEmpty
  | array items => items.isEmpty
  | object members => members.isEmpty

end Json

end AttributeAccess
