import AttributeAccess.Document.Consistency
import AttributeAccess.Json.Writer
import AttributeAccess.Payload
import AttributeAccess.Fault

/-!
# Documents

A registry is kept as a JSON document. The current layout has a version and stores the hint of
each attribute; the legacy layout came before both and is still read. Reading tries the current
layout first; when neither fits, the issues with the current one are reported.
-/

namespace AttributeAccess

/-! ## The current layout -/

structure CurrentDocument where
  last : Nat
  maximum : Nat
  axes : Axes
  attributes : OrderedMap Text AttributeRecord
deriving DecidableEq, Repr

namespace CurrentDocument

def versionName : Text := "V1".toText

def axisToJson (r : AxisRecord) : Json :=
  .object [("attribute_names".toText, .array (r.names.map .string)),
    ("is_hierarchical".toText, .bool r.hierarchical)]

def attributeToJson (r : AttributeRecord) : Json :=
  .object [("values".toText, .array (r.slots.map .ofNat)),
    ("encryption_hint".toText, .string r.hint.name)]

def toJson (d : CurrentDocument) : Json :=
  .object [("version".toText, .string versionName),
    ("last_attribute_value".toText, .ofNat d.last),
    ("max_attribute_creations".toText, .ofNat d.maximum),
    ("axes".toText, .object (d.axes.mapValues axisToJson).entries),
    ("attributes".toText, .object (d.attributes.mapValues attributeToJson).entries)]

def version : Json → Reading Unit
  | .string t => if t = versionName then .ok () else Reading.refuse .notListed
  | _ => Reading.refuse .notListed

def axis : Json → Reading AxisRecord :=
  Reading.record ["attribute_names".toText, "is_hierarchical".toText] fun fields =>
    ((Reading.required fields "attribute_names".toText (Reading.listOf Reading.text)).both
      (Reading.required fields "is_hierarchical".toText Reading.boolean)).map
      fun (names, hierarchical) => ⟨names, hierarchical⟩

def entry : Json → Reading AttributeRecord :=
  Reading.record ["values".toText, "encryption_hint".toText] fun fields =>
    ((Reading.required fields "values".toText (Reading.listOf Reading.slot)).both
      (Reading.required fields "encryption_hint".toText Reading.hint)).map
      fun (slots, hint) => ⟨slots, hint⟩

def checkKeys (attributes : OrderedMap Text AttributeRecord) :
    Reading (OrderedMap Text AttributeRecord) :=
  Consistency.approve (Consistency.malformedKey? attributes.keys) attributes

def wrong? (d : CurrentDocument) : Option Inconsistency :=
  (Consistency.badCounters? d.last d.maximum (d.attributes.values.flatMap (·.slots))).or
    (Consistency.badAxes? d.axes d.attributes.keys)

/-- The fields, with attributes for keys, but not yet compared with each other. -/
def shape : Json → Reading CurrentDocument :=
  Reading.record ["version".toText, "last_attribute_value".toText,
    "max_attribute_creations".toText, "axes".toText, "attributes".toText] fun fields =>
    ((Reading.required fields "version".toText version).both
      ((Reading.required fields "last_attribute_value".toText Reading.slot).both
        ((Reading.required fields "max_attribute_creations".toText Reading.slot).both
          ((Reading.required fields "axes".toText (Reading.entriesOf axis)).both
            (Reading.required fields "attributes".toText fun v =>
              (Reading.entriesOf entry v).bind checkKeys))))).map
      fun (_, last, maximum, axes, attributes) => ⟨last, maximum, axes, attributes⟩

def ofJson (v : Json) : Reading CurrentDocument := do
  let d ← shape v
  Consistency.approve d.wrong? d

/-- A document made by a program rather than read, held to the same rules. -/
def checked (d : CurrentDocument) : Reading CurrentDocument := do
  let _ ← (checkKeys d.attributes).under (.key "attributes".toText)
  Consistency.approve d.wrong? d

end CurrentDocument

/-! ## The legacy layout -/

structure LegacyDocument where
  last : Nat
  maximum : Nat
  axes : Axes
  slots : OrderedMap Text (List Nat)
deriving DecidableEq, Repr

namespace LegacyDocument

def axisToJson (r : AxisRecord) : Json :=
  .array [.array (r.names.map .string), .bool r.hierarchical]

def toJson (d : LegacyDocument) : Json :=
  .object [("last_attribute_value".toText, .ofNat d.last),
    ("max_attribute_value".toText, .ofNat d.maximum),
    ("axes".toText, .object (d.axes.mapValues axisToJson).entries),
    ("attribute_to_int".toText,
      .object (d.slots.mapValues fun slots => .array (slots.map .ofNat)).entries)]

/-- A pair of the names and the flag. -/
def axis : Json → Reading AxisRecord
  | .array [names, hierarchical] =>
    (((Reading.listOf Reading.text names).under (.index 0)).both
      ((Reading.boolean hierarchical).under (.index 1))).map
      fun (names, hierarchical) => ⟨names, hierarchical⟩
  | _ => Reading.refuse .notArray

def checkKeys (slots : OrderedMap Text (List Nat)) : Reading (OrderedMap Text (List Nat)) :=
  Consistency.approve (Consistency.malformedKey? slots.keys) slots

def wrong? (d : LegacyDocument) : Option Inconsistency :=
  (Consistency.badCounters? d.last d.maximum d.slots.values.flatten).or
    (Consistency.badAxes? d.axes d.slots.keys)

def shape : Json → Reading LegacyDocument :=
  Reading.record ["last_attribute_value".toText, "max_attribute_value".toText, "axes".toText,
    "attribute_to_int".toText] fun fields =>
    ((Reading.required fields "last_attribute_value".toText Reading.slot).both
      ((Reading.required fields "max_attribute_value".toText Reading.slot).both
        ((Reading.required fields "axes".toText (Reading.entriesOf axis)).both
          (Reading.required fields "attribute_to_int".toText fun v =>
            (Reading.entriesOf (Reading.listOf Reading.slot) v).bind checkKeys)))).map
      fun (last, maximum, axes, slots) => ⟨last, maximum, axes, slots⟩

def ofJson (v : Json) : Reading LegacyDocument := do
  let d ← shape v
  Consistency.approve d.wrong? d

end LegacyDocument

/-! ## Either layout -/

inductive Document where
  | current (d : CurrentDocument)
  | legacy (d : LegacyDocument)
deriving DecidableEq, Repr

namespace Document

def toJson : Document → Json
  | current d => d.toJson
  | legacy d => d.toJson

def ofJson (v : Json) : Reading Document :=
  match CurrentDocument.ofJson v with
  | .ok d => .ok (current d)
  | .error issues =>
    match LegacyDocument.ofJson v with
    | .ok d => .ok (legacy d)
    | .error _ => .error issues

/-- What is wrong with a payload that cannot be read. -/
def unreadable : Payload → IssueKind
  | .text t => if t.WellFormed then .notJson else .notUnicode
  | .bytes _ => .notJson
  | .foreign _ => .notDocument

/-- What a payload means, by a reading of its JSON value. -/
def readPayload {α : Type} (read : Json → Reading α) (p : Payload) : Except Fault α :=
  match p.readStrict? with
  | none => .error (.deserialization [⟨unreadable p, []⟩])
  | some v => (read v).mapError .deserialization

def decode (p : Payload) : Except Fault Document :=
  readPayload ofJson p

end Document

end AttributeAccess
