import AttributeAccess.Proofs.Registry.Run
import Mathlib.Data.List.Range

/-!
# Every slot is accounted for

`Gapless r` says that the histories of `r` hold the slots from one to the last, each once, that
every history ascends, and that the attributes are exactly those that the axes list. An empty
registry is gapless and a successful operation keeps it so. The agreement of the axes with the
attributes is what makes it go through: an axis whose name is new finds none of its attributes
registered, so issuing slots to it overwrites no history.
-/

namespace AttributeAccess.Registry

structure Gapless (r : Registry) : Prop where
  last_le : r.last ≤ r.maximum
  issued : r.issued.Perm (List.range' 1 r.last)
  histories : ∀ a record, r.attributes.get? a = some record →
    record.slots ≠ [] ∧ record.slots.Pairwise (· < ·)
  registered : ∀ a, r.attributes.contains a = true ↔ r.Lists a
  distinct : ∀ axis record, r.axes.get? axis = some record → record.names.Nodup

namespace Gapless

variable {r s : Registry}

theorem mem_issued (h : r.Gapless) {slot : Nat} : slot ∈ r.issued ↔ 1 ≤ slot ∧ slot ≤ r.last := by
  rw [h.issued.mem_iff, List.mem_range'_1]
  omega

theorem le_last (h : r.Gapless) {a : Attribute} {record : AttributeRecord}
    (ha : r.attributes.get? a = some record) {slot : Nat} (hs : slot ∈ record.slots) :
    slot ≤ r.last :=
  (h.mem_issued.1 (mem_slotsIn.2 ⟨a, record, ha, hs⟩)).2

/-- No attribute of an axis that is not there is registered. -/
theorem get?_eq_none (h : r.Gapless) {a : Attribute} (ha : r.axes.get? a.axis = none) :
    r.attributes.get? a = none := by
  cases hg : r.attributes.get? a with
  | none => rfl
  | some record =>
    obtain ⟨axis, haxis, -⟩ := (h.registered a).1 (OrderedMap.contains_iff.2 ⟨record, hg⟩)
    rw [ha] at haxis
    cases haxis

theorem empty (maximum : Nat) : (Registry.empty maximum).Gapless where
  last_le := Nat.zero_le _
  issued := .refl _
  histories := by
    intro a record h
    cases h
  registered := by
    intro a
    constructor
    · intro h
      cases h
    · rintro ⟨record, h, -⟩
      cases h
  distinct := by
    intro axis record h
    cases h

/-! ## One operation -/

theorem lists_addAxis {axis : Axis} (h : r.addAxis axis = .ok s) (a : Attribute) :
    s.Lists a ↔ (a.axis = axis.name ∧ a.name ∈ axis.names) ∨ r.Lists a := by
  have hnew := (addAxis_eq_ok.1 h).1
  unfold Lists
  rw [axes_addAxis h]
  by_cases hax : axis.name = a.axis
  · rw [if_pos hax, ← hax, hnew]
    simp
  · rw [if_neg hax]
    simp [Ne.symm hax]

theorem addAxis {axis : Axis} (hr : r.Gapless) (h : r.addAxis axis = .ok s) : s.Gapless := by
  obtain ⟨hnew, hd, hsize, hs⟩ := addAxis_eq_ok.1 h
  refine ⟨?_, ?_, ?_, ?_, ?_⟩
  · have := hr.last_le
    subst hs
    simp only [remaining] at hsize ⊢
    omega
  · -- none of the attributes is known yet, so the slots issued stand beside the old ones
    have hunknown : ∀ name ∈ axis.properties.map Prod.fst,
        r.attributes.get? ⟨axis.name, name⟩ = none := fun name _ => hr.get?_eq_none hnew
    subst hs
    show (slotsIn (issue axis.name r.last axis.properties r.attributes)).Perm
      (List.range' 1 (r.last + axis.size))
    rw [slotsIn_issue hd hunknown, ← List.range'_append_1, Nat.add_comm 1 r.last]
    exact hr.issued.append_right _
  · intro a record ha
    rcases get?_addAxis h a with ⟨-, slot, hint, hslot, -, -⟩ | ⟨-, hold⟩
    · rw [ha] at hslot
      cases hslot
      simp
    · exact hr.histories a record (hold ▸ ha)
  · intro a
    rw [lists_addAxis h, ← hr.registered a]
    rcases get?_addAxis h a with ⟨hin, slot, hint, hslot, -, -⟩ | ⟨hout, hold⟩
    · simp [OrderedMap.contains, hslot, hin]
    · simp [OrderedMap.contains, hold, hout]
  · intro name record hg
    rw [axes_addAxis h] at hg
    split at hg
    · cases hg
      exact hd
    · exact hr.distinct name record hg

theorem rotate {a : Attribute} (hr : r.Gapless) (h : r.rotate a = .ok s) : s.Gapless := by
  obtain ⟨hlt, record, ha, hs⟩ := rotate_eq_ok.1 h
  refine ⟨by subst hs; exact hlt, ?_, ?_, ?_, by subst hs; exact hr.distinct⟩
  · subst hs
    show (slotsIn (r.attributes.put a ⟨record.slots ++ [r.last + 1], record.hint⟩)).Perm
      (List.range' 1 (r.last + 1))
    refine (slotsIn_put_extended ha _ _).trans ?_
    rw [List.range'_concat, Nat.one_mul, Nat.add_comm 1 r.last]
    exact hr.issued.append_right _
  · intro b record' hb
    rcases get?_rotate h b with ⟨rfl, old, hold, hnew⟩ | ⟨-, hold⟩
    · rw [hb] at hnew
      cases hnew
      refine ⟨by simp, List.pairwise_append.2 ⟨(hr.histories a old hold).2, by simp, ?_⟩⟩
      intro slot hslot new hnew
      rw [List.mem_singleton] at hnew
      have := hr.le_last hold hslot
      omega
    · exact hr.histories b record' (hold ▸ hb)
  · intro b
    have hlists : s.Lists b ↔ r.Lists b := by
      subst hs
      exact Iff.rfl
    rw [hlists, ← hr.registered b]
    rcases get?_rotate h b with ⟨-, old, hold, hnew⟩ | ⟨-, hold⟩
    · simp [OrderedMap.contains, hold, hnew]
    · simp [OrderedMap.contains, hold]

theorem apply {op : Operation} (h : r.apply op = .ok s) (hr : r.Gapless) : s.Gapless := by
  cases op with
  | addAxis axis => exact hr.addAxis h
  | rotate a => exact hr.rotate h

theorem run (hr : r.Gapless) (ops : List Operation) : (r.run ops).Gapless :=
  run_induction apply hr ops

end Gapless

/-! ## What never changes -/

theorem maximum_apply {r s : Registry} {op : Operation} (h : r.apply op = .ok s) :
    s.maximum = r.maximum := by
  cases op with
  | addAxis axis =>
    obtain ⟨-, -, -, rfl⟩ := addAxis_eq_ok.1 h
    rfl
  | rotate a =>
    obtain ⟨-, record, -, rfl⟩ := rotate_eq_ok.1 h
    rfl

theorem maximum_run (r : Registry) (ops : List Operation) : (r.run ops).maximum = r.maximum :=
  run_induction (P := fun s => s.maximum = r.maximum)
    (fun h hr => (maximum_apply h).trans hr) rfl ops

theorem axes_apply {r s : Registry} {op : Operation} (h : r.apply op = .ok s) {axis : Text}
    {record : AxisRecord} (hr : r.axes.get? axis = some record) :
    s.axes.get? axis = some record := by
  cases op with
  | addAxis added =>
    rw [axes_addAxis h, if_neg, hr]
    rintro rfl
    rw [(addAxis_eq_ok.1 h).1] at hr
    cases hr
  | rotate a =>
    obtain ⟨-, _, -, rfl⟩ := rotate_eq_ok.1 h
    exact hr

theorem axes_run {r : Registry} {axis : Text} {record : AxisRecord}
    (hr : r.axes.get? axis = some record) (ops : List Operation) :
    (r.run ops).axes.get? axis = some record :=
  run_induction (P := fun s => s.axes.get? axis = some record)
    (fun h hr => axes_apply h hr) hr ops

/-! ## Every run -/

/-- **A run from an empty registry loses, repeats and skips no slot.** Whatever is asked of the
registry and whatever is refused, it is gapless, its maximum is the one it started with, and an
axis once added keeps its names and its flag. -/
theorem run_empty_gapless (maximum : Nat) (h : maximum ≤ slotMaximum) (ops : List Operation) :
    Registry.new maximum = .ok (Registry.empty maximum) ∧
    ((Registry.empty maximum).run ops).maximum = maximum ∧
    ((Registry.empty maximum).run ops).Gapless ∧
    ((Registry.empty maximum).run ops).issued.length = ((Registry.empty maximum).run ops).last ∧
    ∀ axis record, ((Registry.empty maximum).run ops).axes.get? axis = some record →
      ∀ later, ((Registry.empty maximum).run (ops ++ later)).axes.get? axis = some record := by
  have hg := (Gapless.empty maximum).run ops
  refine ⟨new_eq_ok.2 ⟨by omega, by omega, rfl⟩, maximum_run _ ops, hg, ?_, ?_⟩
  · rw [hg.issued.length_eq, List.length_range']
  · intro axis record ha later
    rw [run_append]
    exact axes_run ha later

/-- Two slots for an axis, one for a rotation, and then two refusals. -/
theorem run_empty_gapless_at_capacity :
    let axis : Axis := ⟨"A".toText, [("x".toText, .classic), ("y".toText, .hybridized)], true⟩
    let ops : List Operation :=
      [.addAxis axis, .addAxis axis, .rotate ⟨"A".toText, "x".toText⟩,
          .rotate ⟨"A".toText, "y".toText⟩]
    3 ≤ slotMaximum ∧ ((Registry.empty 3).run ops).issued = [1, 3, 2] ∧
      ((Registry.empty 3).run ops).Gapless :=
  ⟨by decide, by decide, (run_empty_gapless 3 (by decide) _).2.2.1⟩

end AttributeAccess.Registry
