import AttributeAccess.AccessPolicy.Equivalence
import AttributeAccess.Proofs.Attribute
import AttributeAccess.Proofs.OrderedMap
import Mathlib.Data.List.Induction

/-!
# Policies as polynomials

Evaluating a policy hands numbers to the literals that it meets, so the value of a part depends on
what was met before it. All the same it is the value of one polynomial at one point: once every
literal is met no number changes any more, so each part may be read with the numbers at the end
(`evaluate_eq`). These number the distinct literals in the order in which they first stand in the
policy (`meet_empty`). Comparing two policies thus comes down to their literals, in any order, and
to their values where those of the left one are numbered from the left (`equivalent_iff`).
-/

namespace AttributeAccess

/-! ## Numbers handed out -/

namespace Labels

open AccessPolicy (number)

/-- The number of an attribute, zero if it has none yet. -/
def label (m : Labels) (a : Attribute) : Nat :=
  (m.get? a).getD 0

/-- The numbers after the literals of a list were met. -/
def meet (m : Labels) (as : List Attribute) : Labels :=
  as.foldl (fun m a => (number a m).2) m

/-- The attributes are numbered from one on as the map lists them. -/
def InOrder (m : Labels) : Prop :=
  ∀ a ∈ m.keys, m.get? a = some (m.keys.idxOf a + 1)

variable {m : Labels} {a b : Attribute} {n : Nat}

theorem number_eq (m : Labels) (a : Attribute) :
    number a m = match m.get? a with
      | some n => (n, m)
      | none => (m.size + 1, m.put a (m.size + 1)) := by
  show (match m.get? a with
    | some n => pure n
    | none => do
      set (m.put a (m.size + 1))
      return m.size + 1 : StateM Labels Nat) m = _
  cases m.get? a <;> rfl

theorem number_of_some (h : m.get? a = some n) : number a m = (n, m) := by
  rw [number_eq, h]

theorem number_of_none (h : m.get? a = none) :
    number a m = (m.size + 1, m.put a (m.size + 1)) := by
  rw [number_eq, h]

theorem get?_number_self (m : Labels) (a : Attribute) :
    (number a m).2.get? a = some (number a m).1 := by
  cases h : m.get? a with
  | some n => rw [number_of_some h, h]
  | none => rw [number_of_none h, OrderedMap.get?_put, if_pos rfl]

/-- A number once given stays. -/
theorem get?_number (h : m.get? b = some n) (a : Attribute) :
    (number a m).2.get? b = some n := by
  cases ha : m.get? a with
  | some k => rw [number_of_some ha, h]
  | none =>
    rw [number_of_none ha, OrderedMap.get?_put, if_neg, h]
    rintro rfl
    rw [ha] at h
    cases h

theorem keys_number (m : Labels) (a : Attribute) :
    (number a m).2.keys = if a ∈ m.keys then m.keys else m.keys ++ [a] := by
  cases h : m.get? a with
  | some n => rw [number_of_some h, if_pos (OrderedMap.mem_keys_iff.2 ⟨n, h⟩)]
  | none =>
    rw [number_of_none h]
    exact OrderedMap.keys_put m a _

theorem InOrder.number (hm : m.InOrder) (a : Attribute) : InOrder (number a m).2 := by
  cases h : m.get? a with
  | some n =>
    rw [number_of_some h]
    exact hm
  | none =>
    have ha : a ∉ m.keys := OrderedMap.get?_eq_none_iff.1 h
    rw [number_of_none h]
    intro b hb
    show (m.put a (m.size + 1)).get? b = some ((m.put a (m.size + 1)).keys.idxOf b + 1)
    rw [OrderedMap.get?_put, OrderedMap.keys_put, if_neg ha]
    by_cases hab : a = b
    · subst hab
      rw [if_pos rfl, List.idxOf_append_of_notMem ha, List.idxOf_cons_self]
      simp [OrderedMap.keys, OrderedMap.size]
    · have hb : b ∈ m.keys := (OrderedMap.mem_keys_put.1 hb).resolve_right (Ne.symm hab)
      rw [if_neg hab, List.idxOf_append_of_mem hb, hm b hb]

/-! ## Lists of literals -/

theorem meet_append (m : Labels) (as bs : List Attribute) :
    m.meet (as ++ bs) = (m.meet as).meet bs :=
  List.foldl_append

theorem get?_meet (h : m.get? a = some n) (as : List Attribute) :
    (m.meet as).get? a = some n := by
  induction as generalizing m with
  | nil => exact h
  | cons b as ih => exact ih (get?_number h b)

/-- Each literal of the list has a number afterwards. -/
theorem exists_get?_meet {as : List Attribute} (ha : a ∈ as) (m : Labels) :
    ∃ n, (m.meet as).get? a = some n := by
  induction as generalizing m with
  | nil => cases ha
  | cons b as ih =>
    rcases List.mem_cons.1 ha with rfl | ha
    · exact ⟨_, get?_meet (get?_number_self m a) as⟩
    · exact ih ha _

theorem eraseDups_concat (as : List Attribute) (a : Attribute) :
    (as ++ [a]).eraseDups = if a ∈ as then as.eraseDups else as.eraseDups ++ [a] := by
  rw [List.eraseDups_append, List.cons_removeAll, List.nil_removeAll]
  by_cases h : a ∈ as <;> simp [h, List.eraseDups_cons]

/-- From no numbers at all, the distinct literals are numbered in the order in which they first
stand in the list. -/
theorem meet_empty (as : List Attribute) :
    InOrder (meet .empty as) ∧ (meet .empty as).keys = as.eraseDups := by
  induction as using List.reverseRecOn with
  | nil => exact ⟨fun a ha => absurd ha List.not_mem_nil, rfl⟩
  | append_singleton as a ih =>
    rw [meet_append]
    refine ⟨ih.1.number a, ?_⟩
    show (number a (meet .empty as)).2.keys = _
    rw [keys_number, ih.2, eraseDups_concat]
    simp only [List.mem_eraseDups]

end Labels

/-! ## Values -/

namespace AccessPolicy

/-- The polynomial of a policy at the point that `label` gives. -/
def value (label : Attribute → Nat) : AccessPolicy → Nat
  | all => 0
  | attr a => label a
  | and l r => l.value label * r.value label
  | or l r => l.value label + r.value label

theorem value_congr {p q : Attribute → Nat} {t : AccessPolicy}
    (h : ∀ a ∈ t.literals, p a = q a) : t.value p = t.value q := by
  induction t with
  | all => rfl
  | attr a => exact h a (List.mem_singleton.2 rfl)
  | and l r ihl ihr | or l r ihl ihr =>
    rw [literals, List.forall_mem_append] at h
    rw [value, value, ihl h.1, ihr h.2]

/-- Numbers given later do not change the value. -/
theorem value_meet (m : Labels) (t : AccessPolicy) (as : List Attribute) :
    t.value ((m.meet t.literals).meet as).label = t.value (m.meet t.literals).label := by
  refine value_congr fun a ha => ?_
  obtain ⟨n, hn⟩ := Labels.exists_get?_meet ha m
  rw [Labels.label, Labels.label, hn, Labels.get?_meet hn]

/-- **Evaluating a policy is taking its polynomial at one point.** The numbers are those after all
its literals were met, also for the parts evaluated before that. -/
theorem evaluate_eq (t : AccessPolicy) (m : Labels) :
    t.evaluate m = (t.value (m.meet t.literals).label, m.meet t.literals) := by
  induction t generalizing m with
  | all => rfl
  | attr a =>
    show number a m = (Labels.label (number a m).2 a, (number a m).2)
    rw [Labels.label, Labels.get?_number_self]
    rfl
  | and l r ihl ihr =>
    show ((l.evaluate m).1 * (r.evaluate (l.evaluate m).2).1, (r.evaluate (l.evaluate m).2).2) = _
    rw [ihl, ihr, value, literals, Labels.meet_append, value_meet]
  | or l r ihl ihr =>
    show ((l.evaluate m).1 + (r.evaluate (l.evaluate m).2).1, (r.evaluate (l.evaluate m).2).2) = _
    rw [ihl, ihr, value, literals, Labels.meet_append, value_meet]

/-- The place of a literal among the distinct literals of a list, counted from one. -/
def firstLabel (literals : List Attribute) (a : Attribute) : Nat :=
  literals.eraseDups.idxOf a + 1

theorem label_meet_empty {as : List Attribute} {a : Attribute} (ha : a ∈ as) :
    (Labels.meet .empty as).label a = firstLabel as a := by
  obtain ⟨horder, hkeys⟩ := Labels.meet_empty as
  have hget := horder a (by rwa [hkeys, List.mem_eraseDups])
  rw [Labels.label, hget, hkeys]
  rfl

/-- Numbering goes by the first places, so what stands behind a list does not change it. -/
theorem firstLabel_append {as : List Attribute} {a : Attribute} (ha : a ∈ as)
    (bs : List Attribute) : firstLabel (as ++ bs) a = firstLabel as a := by
  rw [firstLabel, firstLabel, List.eraseDups_append,
    List.idxOf_append_of_mem (List.mem_eraseDups.2 ha)]

theorem attributes_eq_iff {l r : AccessPolicy} :
    l.attributes = r.attributes ↔ l.literals.Perm r.literals :=
  Attribute.sorted_eq_sorted_iff

/-- **Two policies count as equivalent when they have the same literals, each as often, and the same
value**, once the literals are numbered as the left one has them. -/
theorem equivalent_iff {l r : AccessPolicy} :
    l.equivalent r = true ↔
      l.literals.Perm r.literals ∧
        l.value (firstLabel l.literals) = r.value (firstLabel l.literals) := by
  unfold equivalent
  simp only [evaluate_eq, Bool.and_eq_true, beq_iff_eq, attributes_eq_iff]
  refine and_congr_right fun hperm => ?_
  -- the right policy meets no new literal
  have hright : r.value ((Labels.meet .empty l.literals).meet r.literals).label =
      r.value (firstLabel l.literals) := by
    refine value_congr fun a ha => ?_
    have hl := hperm.mem_iff.2 ha
    obtain ⟨n, hn⟩ := Labels.exists_get?_meet hl .empty
    rw [← label_meet_empty hl, Labels.label, Labels.label, hn, Labels.get?_meet hn]
  rw [hright, value_congr fun a ha => label_meet_empty ha]

theorem equivalent_eq_false {l r : AccessPolicy}
    (h : l.value (firstLabel l.literals) ≠ r.value (firstLabel l.literals)) :
    l.equivalent r = false :=
  Bool.eq_false_iff.2 fun hlr => h (equivalent_iff.1 hlr).2

end AccessPolicy

end AttributeAccess
