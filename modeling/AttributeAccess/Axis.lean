import AttributeAccess.Hint
import AttributeAccess.OrderedMap

/-!
# Axes

An axis is defined by its name, its attributes with their hints, and whether it is hierarchical.
On a hierarchical axis the names are ranked from the lowest to the highest. A registry keeps an
axis as a record of its names and the flag.
-/

namespace AttributeAccess

structure Axis where
  name : Text
  properties : List (Text × Hint)
  hierarchical : Bool := false
deriving DecidableEq, Repr, Inhabited

namespace Axis

/-- An axis whose hints are given by name; the first unknown name is refused. -/
def ofHintNames (name : Text) (properties : List (Text × Text)) (hierarchical : Bool) :
    Except Hint.Unknown Axis := do
  let properties ← properties.mapM fun (name, hint) => do
    .ok (name, ← Hint.ofName hint)
  .ok ⟨name, properties, hierarchical⟩

def names (a : Axis) : List Text := a.properties.map Prod.fst

def size (a : Axis) : Nat := a.properties.length

end Axis

structure AxisRecord where
  names : List Text
  hierarchical : Bool
deriving DecidableEq, Repr, Inhabited

namespace AxisRecord

/-- `lower` is listed before `name`. -/
def Precedes (r : AxisRecord) (lower name : Text) : Prop :=
  r.names.idxOf lower < r.names.idxOf name

instance (r : AxisRecord) (lower name : Text) : Decidable (r.Precedes lower name) :=
  inferInstanceAs (Decidable (_ < _))

/-- The names listed before `name`: the lower ranks of a hierarchical axis. -/
def below (r : AxisRecord) (name : Text) : List Text :=
  r.names.takeWhile (· ≠ name)

end AxisRecord

abbrev Axes := OrderedMap Text AxisRecord

end AttributeAccess
