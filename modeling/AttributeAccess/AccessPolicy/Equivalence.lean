import AttributeAccess.AccessPolicy.Basic
import AttributeAccess.OrderedMap

/-!
# Equivalence up to grouping

Two policies are taken for equivalent when they have the same literals and the same value, where
`or` adds, `and` multiplies and `all` is zero. A literal stands for a number: the first one met is
one, the next new one two, and so on through the left policy and then the right one.
-/

namespace AttributeAccess

/-- The numbers given so far. -/
abbrev Labels := OrderedMap Attribute Nat

namespace AccessPolicy

/-- The number of a literal; a new one takes the next number. -/
def number (a : Attribute) : StateM Labels Nat := do
  let labels ← get
  match labels.get? a with
  | some n => return n
  | none =>
    let n := labels.size + 1
    set (labels.put a n)
    return n

def evaluate : AccessPolicy → StateM Labels Nat
  | all => return 0
  | attr a => number a
  | and l r => return (← l.evaluate) * (← r.evaluate)
  | or l r => return (← l.evaluate) + (← r.evaluate)

def equivalent (l r : AccessPolicy) : Bool :=
  l.attributes == r.attributes &&
    let (left, labels) := l.evaluate .empty
    let (right, _) := r.evaluate labels
    left == right

end AccessPolicy

end AttributeAccess
