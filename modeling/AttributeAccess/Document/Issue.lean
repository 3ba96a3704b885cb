import AttributeAccess.Json.Basic

/-!
# Issues

An issue says what a document, an axis or a setting gets wrong and where: the path of keys and
indexes from the root. The faults of a document whose fields all have the right shape are causes
of their own.
-/

namespace AttributeAccess

/-- A well-shaped document that contradicts itself. -/
inductive Inconsistency where
  | malformedKey (key : Text)
  | lastAboveMaximum (last maximum : Nat)
  | slotAboveLast (slot last : Nat)
  | slotRepeated (slot : Nat)
  | axisRepeats (axis : Text)
  | withoutSlots (attributes : List Text)
  | withoutAxis (attributes : List Text)
deriving DecidableEq, Repr

/-- What is said of a text that is no attribute. -/
def malformedAttribute (t : Text) : Text :=
  "invalid attribute: '".toText ++ t ++ "' does not respect the format <axis::name>".toText

def Inconsistency.message : Inconsistency → Text
  | malformedKey key => malformedAttribute key
  | lastAboveMaximum last maximum =>
    "last attribute value ".toText ++ Digits.ofNat last ++ " exceeds the maximum ".toText ++
      Digits.ofNat maximum
  | slotAboveLast slot last =>
    "attribute value ".toText ++ Digits.ofNat slot ++ " exceeds the last attribute value ".toText ++
      Digits.ofNat last
  | slotRepeated slot =>
    "attribute value ".toText ++ Digits.ofNat slot ++ " is assigned more than once".toText
  | axisRepeats axis => "axis ".toText ++ axis ++ " lists an attribute more than once".toText
  | withoutSlots attributes =>
    "axis attributes without any value: ".toText ++ Text.joinWith ", ".toText attributes
  | withoutAxis attributes =>
    "attributes not listed in any axis: ".toText ++ Text.joinWith ", ".toText attributes

inductive IssueKind where
  | notDocument
  | notJson
  | notObject
  | missing
  | unexpected
  | notText
  | notUnicode
  | emptyText
  | notInteger
  | notIntegerText
  | integerTooLong
  | belowMinimum
  | aboveMaximum
  | notPositive
  | notBoolean
  | notListed
  | notArray
  | notMap
  | inconsistent (cause : Inconsistency)
deriving DecidableEq, Repr

/-- One step of a path. -/
inductive PathStep where
  | key (k : Text)
  | index (n : Nat)
deriving DecidableEq, Repr

structure Issue where
  kind : IssueKind
  path : List PathStep := []
deriving DecidableEq, Repr

def Issue.under (step : PathStep) (i : Issue) : Issue :=
  ⟨i.kind, step :: i.path⟩

end AttributeAccess
