import AttributeAccess.Attribute

/-!
# Access policies

An access policy is a monotone boolean formula over attributes. `all` holds whatever the
attributes are. There is no negation.
-/

namespace AttributeAccess

inductive AccessPolicy where
  | all
  | attr (a : Attribute)
  | and (l r : AccessPolicy)
  | or (l r : AccessPolicy)
deriving DecidableEq, Repr, Inhabited

namespace AccessPolicy

/-- The truth of a policy when `holds` says which literals are true. -/
def Satisfied (holds : Attribute → Prop) : AccessPolicy → Prop
  | all => True
  | attr a => holds a
  | and l r => l.Satisfied holds ∧ r.Satisfied holds
  | or l r => l.Satisfied holds ∨ r.Satisfied holds

theorem Satisfied.mono {p q : Attribute → Prop} (h : ∀ a, p a → q a) {t : AccessPolicy}
    (ht : t.Satisfied p) : t.Satisfied q := by
  induction t with
  | all => exact ht
  | attr a => exact h a ht
  | and l r ihl ihr => exact ⟨ihl ht.1, ihr ht.2⟩
  | or l r ihl ihr => exact ht.imp ihl ihr

/-- The attributes at the leaves from left to right. -/
def literals : AccessPolicy → List Attribute
  | all => []
  | attr a => [a]
  | and l r => l.literals ++ r.literals
  | or l r => l.literals ++ r.literals

/-- The literals in order, repetitions kept. -/
def attributes (t : AccessPolicy) : List Attribute :=
  Attribute.sorted t.literals

/-- The number of nodes on the longest path from the root. -/
def height : AccessPolicy → Nat
  | all | attr _ => 1
  | and l r | or l r => max l.height r.height + 1

/-- How deep a policy may be nested to be read or written. -/
def nestingLimit : Nat := 980

end AccessPolicy

end AttributeAccess
