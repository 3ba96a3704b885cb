import AttributeAccess.Axis
import AttributeAccess.Document.Basic

/-!
# The JSON form of an axis

An axis travels as an object with its name, its attributes in order and the flag. Names are
well-formed and not empty. A hint left out means `classic`, a flag left out means no hierarchy.
-/

namespace AttributeAccess.Axis

def propertyToJson (p : Text × Hint) : Json :=
  .object [("name".toText, .string p.1), ("encryption_hint".toText, .string p.2.name)]

def toJson (a : Axis) : Json :=
  .object [("name".toText, .string a.name),
    ("attribute_properties".toText, .array (a.properties.map propertyToJson)),
    ("is_hierarchical".toText, .bool a.hierarchical)]

/-- The JSON text of an axis. The names of its attributes are checked before its own. -/
def encode (a : Axis) : Reading Text :=
  match (a.names ++ [a.name]).findSome? Reading.badName? with
  | some kind => .error [⟨kind, [.key "name".toText]⟩]
  | none => .ok a.toJson.compact

def property : Json → Reading (Text × Hint) :=
  Reading.record ["name".toText, "encryption_hint".toText] fun fields =>
    (Reading.required fields "name".toText Reading.name).both
      (Reading.optional fields "encryption_hint".toText .classic Reading.hint)

def ofJson : Json → Reading Axis :=
  Reading.record ["name".toText, "attribute_properties".toText, "is_hierarchical".toText]
    fun fields =>
    ((Reading.required fields "name".toText Reading.name).both
      ((Reading.required fields "attribute_properties".toText (Reading.listOf property)).both
        (Reading.optional fields "is_hierarchical".toText false Reading.boolean))).map
      fun (name, properties, hierarchical) => ⟨name, properties, hierarchical⟩

def decode (p : Payload) : Except Fault Axis :=
  Document.readPayload ofJson p

end AttributeAccess.Axis
