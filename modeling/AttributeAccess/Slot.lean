import AttributeAccess.Hint

/-!
# Slots

A slot is a number that an attribute holds; it is issued once and never again. Slots fit into 32
bits. The record of an attribute keeps every slot that it took, in order, and its hint.
-/

namespace AttributeAccess

/-- The largest slot, and the largest number of slots a registry may allow. -/
def slotMaximum : Nat := 4294967295

structure AttributeRecord where
  slots : List Nat
  hint : Hint
deriving DecidableEq, Repr, Inhabited

namespace AttributeRecord

/-- The slots, the largest first. -/
def newestFirst (r : AttributeRecord) : List Nat :=
  r.slots.mergeSort fun a b => b ≤ a

def current? (r : AttributeRecord) : Option Nat :=
  r.slots.max?

end AttributeRecord

end AttributeAccess
