import AttributeAccess.Axis
import AttributeAccess.Fault
import AttributeAccess.Slot

/-!
# The registry

A registry holds axes and the slots of their attributes. Slots are issued from a counter that
only grows, up to a maximum fixed at the start. Adding an axis issues one slot to each of its
attributes; rotating an attribute issues one more to it and keeps the earlier ones.
-/

namespace AttributeAccess

structure Registry where
  last : Nat
  maximum : Nat
  axes : Axes
  attributes : OrderedMap Attribute AttributeRecord
deriving DecidableEq, Repr

namespace Registry

def empty (maximum : Nat) : Registry :=
  ⟨0, maximum, .empty, .empty⟩

/-- An empty registry that allows `maximum` slots. -/
def new (maximum : Int) : Except Fault Registry :=
  if 0 ≤ maximum ∧ maximum ≤ slotMaximum then .ok (empty maximum.toNat)
  else .error (.capacityOverflow maximum slotMaximum)

/-- How many slots may still be issued. -/
def remaining (r : Registry) : Nat :=
  r.maximum - r.last

/-! ## Growing -/

/-- The first name that stands among the names before it. -/
def firstRepeated? (seen : List Text) : List Text → Option Text
  | [] => none
  | name :: names =>
    if name ∈ seen then some name else firstRepeated? (name :: seen) names

/-- Issues the slots after `last` to the attributes of an axis, one to each. -/
def issue (axis : Text) : (last : Nat) → List (Text × Hint) →
    OrderedMap Attribute AttributeRecord → OrderedMap Attribute AttributeRecord
  | _, [], m => m
  | last, (name, hint) :: properties, m =>
    issue axis (last + 1) properties (m.put ⟨axis, name⟩ ⟨[last + 1], hint⟩)

def addAxis (r : Registry) (axis : Axis) : Except Fault Registry :=
  if r.axes.contains axis.name then .error (.existingAxis axis.name)
  else
    match firstRepeated? [] axis.names with
    | some name => .error (.existingAttribute ⟨axis.name, name⟩)
    | none =>
      if r.remaining < axis.size then .error (.capacityOverflow axis.size r.remaining)
      else
        .ok {
          last := r.last + axis.size
          maximum := r.maximum
          axes := r.axes.put axis.name ⟨axis.names, axis.hierarchical⟩
          attributes := issue axis.name r.last axis.properties r.attributes }

/-- Issues a new slot to an attribute. -/
def rotate (r : Registry) (a : Attribute) : Except Fault Registry :=
  if r.maximum ≤ r.last then .error (.capacityOverflow 1 0)
  else
    match r.attributes.get? a with
    | none => .error (.attributeNotFound a)
    | some record =>
      .ok {
        last := r.last + 1
        maximum := r.maximum
        axes := r.axes
        attributes := r.attributes.put a ⟨record.slots ++ [r.last + 1], record.hint⟩ }

/-! ## Looking up -/

def record (r : Registry) (a : Attribute) : Except Fault AttributeRecord :=
  match r.attributes.get? a with
  | some record => .ok record
  | none => .error (.attributeNotFound a)

/-- Every slot the attribute took, the current one first. -/
def slots (r : Registry) (a : Attribute) : Except Fault (List Nat) :=
  (r.record a).map AttributeRecord.newestFirst

def currentSlot (r : Registry) (a : Attribute) : Except Fault Nat := do
  match (← r.record a).current? with
  | some slot => .ok slot
  | none => .error (.attributeWithoutSlots a)

def hint (r : Registry) (a : Attribute) : Except Fault Hint :=
  (r.record a).map AttributeRecord.hint

/-- The current slot of each attribute, in the order given. -/
def currentSlots (r : Registry) (as : List Attribute) : Except Fault (List Nat) :=
  as.mapM r.currentSlot

/-- The join of the hints of attributes required together. -/
def joinedHint (r : Registry) (as : List Attribute) : Except Fault Hint :=
  (as.mapM r.hint).map Hint.joinAll

/-- The same counters, axes and records; the order of the axes and of the attributes is free. -/
def same (r s : Registry) : Bool :=
  r.last == s.last && r.maximum == s.maximum && r.axes.sameEntries s.axes &&
    r.attributes.sameEntries s.attributes

/-- A one-line summary with the axis names in order. -/
def summary (r : Registry) : Text :=
  "Policy(last_attribute_value=".toText ++ Digits.ofNat r.last ++
    ", max_attribute_creations=".toText ++ Digits.ofNat r.maximum ++ ", axes=".toText ++
    (Json.array ((Text.sorted r.axes.keys).map .string)).display ++ [.char ')']

end Registry

end AttributeAccess
