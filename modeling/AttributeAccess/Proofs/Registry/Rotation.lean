import AttributeAccess.Proofs.Registry.CurrentSlot

/-!
# Rotation

A rotation takes back one slot and gives out a newer one. `Renews` says what that is for those who
resolve attributes: the new slot stands before all others of its attribute and takes the place of
its current one in every list of current slots, and nothing else is seen to change. It appends to a
history that may stand in any order, so it is the order by size that puts the new slot first
(`newestFirst_concat`), and that rests on the bound that all slots have in every state
(`Counted.le_last`).
-/

namespace AttributeAccess

/-- A slot that is not below any other comes first. -/
theorem AttributeRecord.newestFirst_concat {r : AttributeRecord} {slot : Nat} (hint : Hint)
    (h : ∀ old ∈ r.slots, old ≤ slot) :
    newestFirst ⟨r.slots ++ [slot], hint⟩ = slot :: r.newestFirst := by
  have hsorted : (slot :: r.newestFirst).Pairwise fun slot older => older ≤ slot :=
    List.pairwise_cons.2 ⟨fun old hold => h old (mem_newestFirst.1 hold), r.pairwise_newestFirst⟩
  have hperm : (newestFirst ⟨r.slots ++ [slot], hint⟩).Perm (slot :: r.newestFirst) :=
    (List.mergeSort_perm _ _).trans
      ((List.perm_append_singleton slot r.slots).trans ((List.mergeSort_perm _ _).symm.cons slot))
  exact List.Perm.eq_of_pairwise (fun _ _ _ _ hle hge => Nat.le_antisymm hge hle)
    (pairwise_newestFirst _) hsorted hperm

namespace Registry

/-- `a` takes `slot`: what `r` says of its attributes becomes what `s` says of them. -/
structure Renews (r : Registry) (a : Attribute) (slot : Nat) (s : Registry) : Prop where
  newest : ∀ old ∈ r.issued, old < slot
  last : s.last = slot
  current : s.currentSlot a = .ok slot
  slots : ∃ older, r.slots a = .ok older ∧ s.slots a = .ok (slot :: older)
  others : ∀ b, b ≠ a → s.slots b = r.slots b ∧ s.currentSlot b = r.currentSlot b
  hint : ∀ b, s.hint b = r.hint b
  axes : s.axes = r.axes
  maximum : s.maximum = r.maximum
  keys : s.attributes.keys = r.attributes.keys

/-- The current slots of attributes once `a` took `slot`, by those that they had before. -/
def renewed (a : Attribute) (slot : Nat) (as : List Attribute) (olds : List Nat) : List Nat :=
  List.zipWith (fun b old => if b = a then slot else old) as olds

variable {r s : Registry} {a : Attribute}

theorem record_congr {b : Attribute} (h : s.attributes.get? b = r.attributes.get? b) :
    s.record b = r.record b := by
  unfold record
  rw [h]

namespace Renews

theorem of_rotate (hr : r.Counted) (h : r.rotate a = .ok s) : r.Renews a (r.last + 1) s := by
  obtain ⟨-, record, ha, hs⟩ := rotate_eq_ok.1 h
  have hnew : s.attributes.get? a = some ⟨record.slots ++ [r.last + 1], record.hint⟩ := by
    rw [hs, OrderedMap.get?_put, if_pos rfl]
  have hold : ∀ b, b ≠ a → s.record b = r.record b := fun b hb => by
    rcases get?_rotate h b with ⟨hab, -⟩ | ⟨-, hget⟩
    · exact absurd hab.symm hb
    · exact record_congr hget
  have hle : ∀ old ∈ r.issued, old < r.last + 1 := fun old hmem =>
    Nat.lt_succ_of_le (hr.le_last old hmem)
  have hfirst : AttributeRecord.newestFirst ⟨record.slots ++ [r.last + 1], record.hint⟩ =
      (r.last + 1) :: record.newestFirst :=
    AttributeRecord.newestFirst_concat _ fun old hmem =>
      Nat.le_of_lt (hle old (mem_slotsIn.2 ⟨a, record, ha, hmem⟩))
  refine ⟨hle, ?_, ?_, ⟨record.newestFirst, slots_eq_ok ha, ?_⟩, fun b hb => ⟨?_, ?_⟩, fun b => ?_,
    ?_, ?_, ?_⟩
  · rw [hs]
  · refine currentSlot_eq_ok hnew ((AttributeRecord.current?_eq_head? _).trans ?_)
    rw [hfirst, List.head?_cons]
  · rw [slots_eq_ok hnew, hfirst]
  · rw [Registry.slots, Registry.slots, hold b hb]
  · rw [Registry.currentSlot, Registry.currentSlot, hold b hb]
  · by_cases hb : b = a
    · rw [hb, hint_eq_ok hnew, hint_eq_ok ha]
    · rw [Registry.hint, Registry.hint, hold b hb]
  · rw [hs]
  · rw [hs]
  · rw [hs, OrderedMap.keys_put, if_pos (OrderedMap.mem_keys_iff.2 ⟨record, ha⟩)]

/-- Current slots of attributes required together: the new slot stands where the attribute does. -/
theorem currentSlots {slot : Nat} (h : r.Renews a slot s) {as : List Attribute} {olds : List Nat}
    (holds : r.currentSlots as = .ok olds) :
    s.currentSlots as = .ok (renewed a slot as olds) := by
  have hbefore := mapM_eq_ok.1 holds
  clear holds
  refine mapM_eq_ok.2 ?_
  induction hbefore with
  | nil => exact .nil
  | @cons b old as olds hb _ ih =>
    refine .cons ?_ ih
    show s.currentSlot b = .ok (if b = a then slot else old)
    by_cases hba : b = a
    · rw [if_pos hba, hba, h.current]
    · rw [if_neg hba, (h.others b hba).2, hb]

end Renews

theorem currentSlot_mem_issued {old : Nat} (h : r.currentSlot a = .ok old) : old ∈ r.issued := by
  cases hrecord : r.attributes.get? a with
  | none => simp [currentSlot, Registry.record, hrecord, bind, Except.bind] at h
  | some record =>
    cases hmax : record.slots.max? with
    | none =>
      rw [currentSlot_eq_error hrecord (List.max?_eq_none_iff.1 hmax)] at h
      cases h
    | some slot =>
      rw [currentSlot_eq_ok hrecord hmax] at h
      cases h
      exact mem_slotsIn.2 ⟨a, record, hrecord, List.max?_mem hmax⟩

/-- **A rotation revokes the current slot of one attribute and nothing else.** In every run from a
registry that is new or was read, the slot it gives out is newer than any slot that some attribute
holds, and `Renews` says all that is seen of it. Attributes that had current slots together have
them afterwards: the new slot wherever the attribute stands, which differs from what stood there,
and elsewhere the slots that they had. -/
theorem rotate_renews {start : Registry} (h : Origin start) (ops : List Operation) {a : Attribute}
    {s : Registry} (hs : (start.run ops).rotate a = .ok s) :
    let r := start.run ops
    let slot := r.last + 1
    r.Renews a slot s ∧
    ∀ as olds, r.currentSlots as = .ok olds →
      olds.length = as.length ∧ (∀ old ∈ olds, old < slot) ∧
      s.currentSlots as = .ok (renewed a slot as olds) := by
  intro r slot
  have hrenews : r.Renews a slot s := .of_rotate ((Counted.origin h).run ops) hs
  refine ⟨hrenews, fun as olds holds => ⟨?_, fun old hold => ?_, hrenews.currentSlots holds⟩⟩
  · exact (mapM_eq_ok.1 holds).length_eq.symm
  · obtain ⟨b, -, hb⟩ := (mem_iff_of_forall₂ (mapM_eq_ok.1 holds) old).1 hold
    exact hrenews.newest old (currentSlot_mem_issued hb)

/-- A document with a history out of order and an empty one, which gets its first slot in the run;
the attribute that is rotated stands twice in the list. -/
theorem rotate_renews_twice_listed :
    let d : CurrentDocument := ⟨5, 7, .ofList [("A".toText, ⟨["x".toText, "y".toText], true⟩)],
      .ofList [("A::x".toText, ⟨[2, 5, 3], .hybridized⟩), ("A::y".toText, ⟨[], .classic⟩)]⟩
    let x : Attribute := ⟨"A".toText, "x".toText⟩
    let y : Attribute := ⟨"A".toText, "y".toText⟩
    let r := (ofCurrent d).run [.rotate y]
    decode (.text d.toJson.compact) = .ok (ofCurrent d) ∧ r.currentSlots [x, y, x] = .ok [5, 6, 5] ∧
      ∃ s, r.rotate x = .ok s ∧ r.Renews x 7 s ∧ s.currentSlots [x, y, x] = .ok [7, 6, 7] := by
  intro d x y r
  have hread : decode (.text d.toJson.compact) = .ok (ofCurrent d) :=
    decode_of_document (Document.decode_toJson rfl (by decide) (by decide))
  have holds : r.currentSlots [x, y, x] = .ok [5, 6, 5] := rfl
  obtain ⟨s, hs⟩ : ∃ s, r.rotate x = .ok s := ⟨_, rfl⟩
  obtain ⟨hrenews, hlists⟩ := rotate_renews (.document hread) [.rotate y] hs
  exact ⟨hread, holds, s, hs, hrenews, (hlists _ _ holds).2.2⟩

end Registry

end AttributeAccess
