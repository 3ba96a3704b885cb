import AttributeAccess.Attribute
import AttributeAccess.Axis
import AttributeAccess.Document.Reading

/-!
# Consistency of a document

A document lists the axes with their names, and the slots of each attribute under the text of the
attribute. It is consistent when its keys are attributes, no slot exceeds the last one or stands
twice, the last one is within the maximum, no axis repeats a name, and the axes list exactly the
attributes that have an entry. The first thing wrong is reported, in that order.
-/

namespace AttributeAccess.Consistency

/-- The first slot that exceeds `last` or stands among those seen before it. -/
def badSlot? (last : Nat) (seen : List Nat) : List Nat → Option Inconsistency
  | [] => none
  | slot :: slots =>
    if last < slot then some (.slotAboveLast slot last)
    else if slot ∈ seen then some (.slotRepeated slot)
    else badSlot? last (slot :: seen) slots

def badCounters? (last maximum : Nat) (slots : List Nat) : Option Inconsistency :=
  if maximum < last then some (.lastAboveMaximum last maximum) else badSlot? last [] slots

/-- The texts of the attributes that the axes list. -/
def listed (axes : Axes) : List Text :=
  axes.entries.flatMap fun (axis, record) =>
    record.names.map fun name => Attribute.text ⟨axis, name⟩

def badAxes? (axes : Axes) (keys : List Text) : Option Inconsistency :=
  match axes.entries.find? fun (_, record) => !decide record.names.Nodup with
  | some (axis, _) => some (.axisRepeats axis)
  | none =>
    match ((listed axes).filter (· ∉ keys)).eraseDups, keys.filter (· ∉ listed axes) with
    | [], [] => none
    | [], unlisted => some (.withoutAxis (Text.sorted unlisted))
    | missing, _ => some (.withoutSlots (Text.sorted missing))

def malformedKey? (keys : List Text) : Option Inconsistency :=
  (keys.find? fun key => (Attribute.ofText? key).isNone).map .malformedKey

/-- `a` unless something is wrong. -/
def approve {α : Type} (wrong : Option Inconsistency) (a : α) : Reading α :=
  match wrong with
  | some cause => Reading.refuse (.inconsistent cause)
  | none => .ok a

end AttributeAccess.Consistency
