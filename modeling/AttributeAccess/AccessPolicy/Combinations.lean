import AttributeAccess.AccessPolicy.Basic
import AttributeAccess.Axis
import AttributeAccess.Fault

/-!
# Attribute combinations

Resolved against the axes of a registry, a policy becomes a list of combinations: its disjunctive
normal form. When hierarchies are followed, a literal on a hierarchical axis also gives one
combination for each lower rank.
-/

namespace AttributeAccess

/-- Attributes that are required together. -/
abbrev Combination := List Attribute

/-- Whether the attributes `S` make a literal true: it is among them or, where the hierarchy of
its axis is followed, an attribute of the axis listed before it is. -/
def Axes.Grants (axes : Axes) (follow : Bool) (S : Attribute → Prop) (a : Attribute) : Prop :=
  S a ∨ follow ∧ ∃ record, axes.get? a.axis = some record ∧ record.hierarchical ∧
    ∃ name, record.Precedes name a.name ∧ S ⟨a.axis, name⟩

namespace AccessPolicy

def literalCombinations (axes : Axes) (follow : Bool) (a : Attribute) :
    Except Fault (List Combination) :=
  match axes.get? a.axis with
  | none => .error (.invalidAxis a.axis)
  | some record =>
    if follow && record.hierarchical then
      if a.name ∈ record.names then
        .ok ([a] :: (record.below a.name).map fun name => [⟨a.axis, name⟩])
      else .error (.attributeNotFound a)
    else .ok [[a]]

/-- Every combination of the first list joined with every one of the second. -/
def product (ls rs : List Combination) : List Combination :=
  ls.flatMap fun l => rs.map fun r => l ++ r

def combinations (axes : Axes) (follow : Bool) : AccessPolicy → Except Fault (List Combination)
  | all => .ok [[]]
  | attr a => literalCombinations axes follow a
  | and l r => do
    let ls ← l.combinations axes follow
    let rs ← r.combinations axes follow
    .ok (product ls rs)
  | or l r => do
    let ls ← l.combinations axes follow
    let rs ← r.combinations axes follow
    .ok (ls ++ rs)

end AccessPolicy

end AttributeAccess
