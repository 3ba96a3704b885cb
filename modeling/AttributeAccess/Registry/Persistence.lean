import AttributeAccess.Document.Basic
import AttributeAccess.Registry.Event

/-!
# Keeping a registry

A registry is written as a document of the current layout and read from either layout. The keys
of a document are the texts of attributes: of attributes with one text only the last is written,
in the place of the first, and the document is then refused or not like any other. A name that an
axis lists has to be well-formed; in the keys, surrogates are replaced.
-/

namespace AttributeAccess.Registry

def toDocument (r : Registry) : CurrentDocument :=
  ⟨r.last, r.maximum, r.axes,
    OrderedMap.ofList (r.attributes.entries.map fun (a, record) => (a.text, record))⟩

/-- Why a registry is not written: its document breaks the rules of documents, or a name in it
cannot be encoded. -/
inductive WriteFault where
  | invalid (issues : List Issue)
  | unencodable (name : Text)
deriving DecidableEq, Repr

/-- The JSON text of a registry. -/
def encode (r : Registry) : Except WriteFault Text := do
  let d ← r.toDocument.checked.mapError .invalid
  d.toJson.strict.mapError .unencodable

/-- The entries whose key is an attribute. -/
def keyed {α : Type} (m : OrderedMap Text α) : OrderedMap Attribute α :=
  OrderedMap.ofList (m.entries.filterMap fun (key, v) =>
    (Attribute.ofText? key).map fun a => (a, v))

def ofCurrent (d : CurrentDocument) : Registry :=
  ⟨d.last, d.maximum, d.axes, keyed d.attributes⟩

/-- Slots are put into ascending order, and every hint is `classic`. -/
def ofLegacy (d : LegacyDocument) : Registry :=
  ⟨d.last, d.maximum, d.axes, keyed (d.slots.mapValues fun slots => ⟨slots.mergeSort, .classic⟩)⟩

def ofDocument : Document → Registry
  | .current d => ofCurrent d
  | .legacy d => ofLegacy d

def decode (p : Payload) : Except Fault Registry :=
  (Document.decode p).map ofDocument

end AttributeAccess.Registry

namespace AttributeAccess

/-- What reading a document tells: the upgrade of an old one. -/
def Event.ofDocument : Except Fault Document → List Event
  | .ok (.legacy d) => [.documentUpgraded (Registry.ofLegacy d).attributes.size]
  | _ => []

end AttributeAccess
