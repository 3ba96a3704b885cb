import AttributeAccess.Registry.Basic

/-!
# Events

What a registry tells its operator about an operation: one event for each axis added, attribute
rotated and old document upgraded, and a warning when an axis exists already or the slots run
out.
-/

namespace AttributeAccess

inductive Event where
  | axisAdded (axis : Text) (attributes : Nat) (hierarchical : Bool) (last : Nat)
  | axisExists (axis : Text)
  | capacityExceeded (axis : Text) (requested remaining : Int)
  | attributeRotated (a : Attribute) (slot history : Nat)
  | capacityExhausted (a : Attribute)
  | documentUpgraded (attributes : Nat)
deriving DecidableEq, Repr

namespace Event

inductive Level where
  | info
  | warning
deriving DecidableEq, Repr

def Level.name : Level → Text
  | info => "info".toText
  | warning => "warning".toText

def level : Event → Level
  | axisAdded .. | attributeRotated .. | documentUpgraded _ => .info
  | axisExists _ | capacityExceeded .. | capacityExhausted _ => .warning

def text : Event → Text
  | axisAdded .. => "Axis added".toText
  | axisExists _ => "Axis already exists".toText
  | capacityExceeded .. => "Attribute capacity exceeded".toText
  | attributeRotated .. => "Attribute rotated".toText
  | capacityExhausted _ => "Attribute capacity exhausted".toText
  | documentUpgraded _ => "Legacy policy upgraded".toText

def fields : Event → List (Text × Json)
  | axisAdded axis attributes hierarchical last =>
    [("axis".toText, .string axis), ("attributes".toText, .ofNat attributes),
      ("hierarchical".toText, .bool hierarchical), ("last_attribute_value".toText, .ofNat last)]
  | axisExists axis => [("axis".toText, .string axis)]
  | capacityExceeded axis requested remaining =>
    [("axis".toText, .string axis), ("requested".toText, .ofInt requested),
      ("remaining".toText, .ofInt remaining)]
  | attributeRotated a slot history =>
    [("attribute".toText, .string a.text), ("value".toText, .ofNat slot),
      ("history".toText, .ofNat history)]
  | capacityExhausted a => [("attribute".toText, .string a.text)]
  | documentUpgraded attributes =>
    [("version".toText, .string "V1".toText), ("attributes".toText, .ofNat attributes)]

/-- What adding an axis tells, given how it came out; a repeated name tells nothing. -/
def ofAddAxis (axis : Axis) : Except Fault Registry → List Event
  | .ok r => [axisAdded axis.name axis.size axis.hierarchical r.last]
  | .error (.existingAxis name) => [axisExists name]
  | .error (.capacityOverflow requested remaining) =>
    [capacityExceeded axis.name requested remaining]
  | .error _ => []

/-- What a rotation tells, given how it came out; an unknown attribute tells nothing. -/
def ofRotate (a : Attribute) : Except Fault Registry → List Event
  | .ok r => [attributeRotated a r.last (((r.attributes.get? a).map (·.slots.length)).getD 0)]
  | .error (.capacityOverflow ..) => [capacityExhausted a]
  | .error _ => []

end Event

end AttributeAccess
