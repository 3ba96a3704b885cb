import AttributeAccess.Proofs.Registry.History

/-!
# How many slots a registry holds

The slots of a registry are distinct and none exceeds the last one, so there is at most one more of
them than the last one says: zero is a slot too. There are no more than it says exactly when one of
the numbers up to it is `Spare`, held by no attribute (`Counted.spare_iff`). Operations issue nothing
up to the last slot, so what is spare stays so (`Spare.run`). In a registry that began empty zero is
spare. A document may give zero to an attribute and all the numbers up to its last one to others, and
then a run of rotations ends with more slots than the maximum (`issued_within_iff`).
-/

namespace AttributeAccess.Registry

/-- Of the numbers from zero to the last slot, one is held by no attribute. -/
def Spare (r : Registry) : Prop :=
  ∃ slot ≤ r.last, slot ∉ r.issued

variable {r s : Registry}

/-! ## One state -/

namespace Counted

theorem issued_subset_range (hr : r.Counted) : r.issued ⊆ List.range (r.last + 1) :=
  fun slot hslot => List.mem_range.2 (Nat.lt_succ_of_le (hr.le_last slot hslot))

theorem length_issued_le (hr : r.Counted) : r.issued.length ≤ r.last + 1 := by
  have hlength := (hr.distinct.subperm hr.issued_subset_range).length_le
  rwa [List.length_range] at hlength

theorem spare_iff (hr : r.Counted) : r.Spare ↔ r.issued.length ≤ r.last := by
  constructor
  · rintro ⟨slot, hle, hfree⟩
    have hsub : r.issued ⊆ (List.range (r.last + 1)).erase slot := by
      intro held hheld
      have hne : held ≠ slot := fun heq => hfree (heq ▸ hheld)
      exact (List.mem_erase_of_ne hne).2 (hr.issued_subset_range hheld)
    have hlength := (hr.distinct.subperm hsub).length_le
    rwa [List.length_erase_of_mem (List.mem_range.2 (Nat.lt_succ_of_le hle)), List.length_range]
      at hlength
  · intro hlength
    by_contra hnone
    have hsub : List.range (r.last + 1) ⊆ r.issued := by
      intro slot hslot
      by_contra hfree
      exact hnone ⟨slot, Nat.le_of_lt_succ (List.mem_range.1 hslot), hfree⟩
    have hall := (List.nodup_range.subperm hsub).length_le
    rw [List.length_range] at hall
    omega

end Counted

/-! ## One operation -/

/-- All that is issued lies beyond the last slot. -/
theorem Spare.apply {op : Operation} (hr : r.Counted) (h : r.apply op = .ok s) (hspare : r.Spare) :
    s.Spare := by
  obtain ⟨slot, hle, hfree⟩ := hspare
  obtain ⟨count, hgrows⟩ := Grows.step hr (.operation op)
  have hnext : r.next (.operation op) = s := after_of_apply h
  have hlast := hgrows.last
  have hissued := hgrows.issued.subset
  rw [hgrows.issuedBy] at hissued
  rw [hnext] at hlast hissued
  refine ⟨slot, by omega, fun hheld => ?_⟩
  rcases List.mem_append.1 (hissued hheld) with hold | hnew
  · exact hfree hold
  · rw [List.mem_range'_1] at hnew
    omega

theorem length_issued_rotate {a : Attribute} (h : r.rotate a = .ok s) :
    s.issued.length = r.issued.length + 1 := by
  obtain ⟨-, record, ha, rfl⟩ := rotate_eq_ok.1 h
  exact (slotsIn_put_extended ha [r.last + 1] record.hint).length_eq.trans List.length_append

/-! ## Every run -/

theorem Spare.run (hr : r.Counted) (hspare : r.Spare) (ops : List Operation) :
    (r.run ops).Spare := by
  have hboth : (r.run ops).Counted ∧ (r.run ops).Spare :=
    run_induction (P := fun s => s.Counted ∧ s.Spare)
      (fun h hs => ⟨hs.1.apply h, hs.2.apply hs.1 h⟩) ⟨hr, hspare⟩ ops
  exact hboth.2

/-- While slots are left, every rotation adds one. -/
theorem length_issued_rotations {a : Attribute} (ha : a ∈ r.attributes.keys) {count : Nat}
    (hcount : r.last + count ≤ r.maximum) :
    (r.run (List.replicate count (.rotate a))).issued.length = r.issued.length + count := by
  induction count generalizing r with
  | zero => rfl
  | succ count ih =>
    obtain ⟨record, hrecord⟩ := OrderedMap.mem_keys_iff.1 ha
    have hlt : r.last < r.maximum := by omega
    obtain ⟨s, hs⟩ : ∃ s, r.rotate a = .ok s := ⟨_, rotate_eq_ok.2 ⟨hlt, record, hrecord, rfl⟩⟩
    have hafter : r.after (.rotate a) = s := after_of_apply hs
    have hkey : a ∈ s.attributes.keys := (mem_keys_rotate hs).2 ha
    have hroom : s.last + count ≤ s.maximum := by
      obtain ⟨-, _, -, rfl⟩ := rotate_eq_ok.1 hs
      simp only
      omega
    rw [List.replicate_succ, run, List.foldl_cons, hafter]
    calc (s.run (List.replicate count (.rotate a))).issued.length
      _ = s.issued.length + count := ih hkey hroom
      _ = r.issued.length + (count + 1) := by
        rw [length_issued_rotate hs]
        omega

/-- With nothing to spare zero is held, and its attribute can be rotated until the slots run out. -/
theorem exists_run_over_maximum (hr : r.Counted) (h : ¬ r.Spare) :
    ∃ ops, r.maximum < (r.run ops).issued.length := by
  have hlength := mt hr.spare_iff.2 h
  have hzero : 0 ∈ r.issued := by
    by_contra hfree
    exact h ⟨0, Nat.zero_le _, hfree⟩
  obtain ⟨a, record, ha, -⟩ := mem_slotsIn.1 hzero
  have hle := hr.last_le
  refine ⟨List.replicate (r.maximum - r.last) (.rotate a), ?_⟩
  rw [length_issued_rotations (OrderedMap.mem_keys_iff.2 ⟨record, ha⟩) (by omega)]
  omega

/-- **The slots of a registry that was read outnumber its last one by one at most, and only if
nothing is spare.** For a document of either layout and every run from its registry, the last slot
stays within the maximum of the document. All runs keep the number of slots within the last one
exactly when a number from zero to the last slot of the document is not held by any of its
attributes, and exactly then do all runs keep it within the maximum. -/
theorem issued_within_iff {p : Payload} {start : Registry} (h : decode p = .ok start) :
    (∀ ops, (start.run ops).issued.length ≤ (start.run ops).last + 1 ∧
      (start.run ops).last ≤ (start.run ops).maximum ∧
      (start.run ops).maximum = start.maximum) ∧
    ((∀ ops, (start.run ops).issued.length ≤ (start.run ops).last) ↔ start.Spare) ∧
    ((∀ ops, (start.run ops).issued.length ≤ start.maximum) ↔ start.Spare) := by
  have hstart := Counted.decode h
  have hwithin : start.Spare → ∀ ops, (start.run ops).issued.length ≤ (start.run ops).last :=
    fun hspare ops => (hstart.run ops).spare_iff.1 (hspare.run hstart ops)
  refine ⟨fun ops => ?_, ⟨fun hall => ?_, hwithin⟩, ⟨fun hall => ?_, fun hspare ops => ?_⟩⟩
  · exact ⟨(hstart.run ops).length_issued_le, (hstart.run ops).last_le, maximum_run start ops⟩
  · exact hstart.spare_iff.2 (hall [])
  · by_contra hnone
    obtain ⟨ops, hover⟩ := exists_run_over_maximum hstart hnone
    exact Nat.not_le_of_lt hover (hall ops)
  · calc (start.run ops).issued.length
      _ ≤ (start.run ops).last := hwithin hspare ops
      _ ≤ (start.run ops).maximum := (hstart.run ops).last_le
      _ = start.maximum := maximum_run start ops

/-- Zero is held, and one and two are spare. -/
theorem issued_within_iff_gap :
    let d : CurrentDocument := ⟨3, 4, .ofList [("A".toText, ⟨["x".toText, "y".toText], true⟩)],
      .ofList [("A::x".toText, ⟨[3, 0], .classic⟩), ("A::y".toText, ⟨[], .hybridized⟩)]⟩
    decode (.text d.toJson.compact) = .ok (ofCurrent d) ∧ (ofCurrent d).Spare ∧
      ∀ ops, ((ofCurrent d).run ops).issued.length ≤ ((ofCurrent d).run ops).last ∧
        ((ofCurrent d).run ops).issued.length ≤ 4 := by
  intro d
  have hread : decode (.text d.toJson.compact) = .ok (ofCurrent d) :=
    decode_toJson rfl (by decide) (by decide)
  have hspare : (ofCurrent d).Spare := ⟨1, by decide, by decide⟩
  obtain ⟨-, hlast, hmaximum⟩ := issued_within_iff hread
  exact ⟨hread, hspare, fun ops => ⟨hlast.2 hspare ops, hmaximum.2 hspare ops⟩⟩

/-- Zero is the only slot of the document, and its last one. A rotation makes two slots where the
maximum is one. -/
theorem issued_over_maximum :
    let d : CurrentDocument := ⟨0, 1, .ofList [("A".toText, ⟨["a".toText], false⟩)],
      .ofList [("A::a".toText, ⟨[0], .classic⟩)]⟩
    let r := (ofCurrent d).run [.rotate ⟨"A".toText, "a".toText⟩]
    decode (.text d.toJson.compact) = .ok (ofCurrent d) ∧
      (ofCurrent d).last < (ofCurrent d).issued.length ∧
      r.issued = [0, 1] ∧ r.last = 1 ∧ r.maximum = 1 ∧ r.maximum < r.issued.length := by
  intro d r
  exact ⟨decode_toJson rfl (by decide) (by decide), by decide, by decide, by decide, by decide,
    by decide⟩

end AttributeAccess.Registry
