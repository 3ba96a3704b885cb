import AttributeAccess.Proofs.AccessPolicy.Labelling
import Mathlib.Logic.Relation

/-!
# Regrouping

`Regroup` is one use of commutativity or associativity of a connective, at any depth. It changes
neither which literals a policy has nor its polynomial, so policies that differ in their grouping
only count as equivalent (`equivalent_of_regroup`), though the literals of one may be met in an
order that is not that of the other.
-/

namespace AttributeAccess.AccessPolicy

/-- One use of commutativity or associativity of `op` at the root. -/
inductive Rearranged (op : AccessPolicy → AccessPolicy → AccessPolicy) :
    AccessPolicy → AccessPolicy → Prop
  | comm (l r : AccessPolicy) : Rearranged op (op l r) (op r l)
  | assoc (s t u : AccessPolicy) : Rearranged op (op (op s t) u) (op s (op t u))
  | assoc_symm (s t u : AccessPolicy) : Rearranged op (op s (op t u)) (op (op s t) u)

inductive Regroup : AccessPolicy → AccessPolicy → Prop
  | and {l r : AccessPolicy} : Rearranged and l r → Regroup l r
  | or {l r : AccessPolicy} : Rearranged or l r → Regroup l r
  | and_left {l l' : AccessPolicy} (r : AccessPolicy) : Regroup l l' → Regroup (l.and r) (l'.and r)
  | and_right {r r' : AccessPolicy} (l : AccessPolicy) : Regroup r r' → Regroup (l.and r) (l.and r')
  | or_left {l l' : AccessPolicy} (r : AccessPolicy) : Regroup l l' → Regroup (l.or r) (l'.or r)
  | or_right {r r' : AccessPolicy} (l : AccessPolicy) : Regroup r r' → Regroup (l.or r) (l.or r')

variable {l r : AccessPolicy}

theorem Rearranged.literals_perm {op : AccessPolicy → AccessPolicy → AccessPolicy}
    (hop : ∀ l r, (op l r).literals = l.literals ++ r.literals) (h : Rearranged op l r) :
    l.literals.Perm r.literals := by
  cases h with
  | comm l r =>
    rw [hop, hop]
    exact List.perm_append_comm
  | assoc s t u | assoc_symm s t u =>
    simp only [hop, List.append_assoc]
    exact .refl _

theorem Rearranged.value_eq {op : AccessPolicy → AccessPolicy → AccessPolicy} {f : Nat → Nat → Nat}
    [Std.Commutative f] [Std.Associative f] {label : Attribute → Nat}
    (hop : ∀ l r, (op l r).value label = f (l.value label) (r.value label))
    (h : Rearranged op l r) : l.value label = r.value label := by
  cases h with
  | comm l r =>
    rw [hop, hop]
    exact Std.Commutative.comm _ _
  | assoc s t u =>
    simp only [hop]
    exact Std.Associative.assoc _ _ _
  | assoc_symm s t u =>
    simp only [hop]
    exact (Std.Associative.assoc _ _ _).symm

/-! ## One step -/

theorem Regroup.literals_perm (h : Regroup l r) : l.literals.Perm r.literals := by
  induction h with
  | and h | or h => exact h.literals_perm fun _ _ => rfl
  | and_left r _ ih | or_left r _ ih => exact ih.append_right _
  | and_right l _ ih | or_right l _ ih => exact ih.append_left _

theorem Regroup.value_eq (h : Regroup l r) (label : Attribute → Nat) :
    l.value label = r.value label := by
  induction h with
  | and h => exact h.value_eq (f := (· * ·)) fun _ _ => rfl
  | or h => exact h.value_eq (f := (· + ·)) fun _ _ => rfl
  | and_left r _ ih => rw [value, value, ih]
  | and_right l _ ih => rw [value, value, ih]
  | or_left r _ ih => rw [value, value, ih]
  | or_right l _ ih => rw [value, value, ih]

/-! ## Any number of steps -/

/-- **Regrouping does not show.** A policy is equivalent to all that commutativity and associativity
of the connectives make of it, in any number of steps and at any depth. -/
theorem equivalent_of_regroup (h : Relation.ReflTransGen Regroup l r) : l.equivalent r = true := by
  have hsteps : l.literals.Perm r.literals ∧ ∀ label, l.value label = r.value label := by
    induction h with
    | refl => exact ⟨.refl _, fun _ => rfl⟩
    | tail _ hstep ih =>
      exact ⟨ih.1.trans hstep.literals_perm, fun label => (ih.2 label).trans (hstep.value_eq label)⟩
  exact equivalent_iff.2 ⟨hsteps.1, hsteps.2 _⟩

/-- A commuted product below a sum that is regrouped, with `all` and a literal that comes twice. -/
theorem equivalent_of_regroup_nested :
    let a : AccessPolicy := .attr ⟨"A".toText, "a".toText⟩
    let b : AccessPolicy := .attr ⟨"A".toText, "b".toText⟩
    let l := ((a.and b).or all).or (b.and all)
    let r := (b.and a).or (all.or (b.and all))
    Relation.ReflTransGen Regroup l r ∧ l ≠ r ∧ l.equivalent r = true := by
  intro a b l r
  have hsteps : Relation.ReflTransGen Regroup l r :=
    .tail (.single (.or (.assoc _ _ _))) (.or_left _ (.and (.comm _ _)))
  exact ⟨hsteps, by decide, equivalent_of_regroup hsteps⟩

end AttributeAccess.AccessPolicy
