import AttributeAccess.Proofs.Registry.Migration
import AttributeAccess.Proofs.Registry.Resolution

/-!
# Current slots

The current slot of an attribute is the first of its slots, as far as it has any
(`AttributeRecord.current?_eq_head?`). An attribute without slots is an error of its own. No operation
leaves one behind: a history without slots is there from the start (`get?_of_run_of_nil`). So the
error arises in some run exactly if a document stores such a history, which both layouts admit
(`hasCurrent_run_iff`).
-/

namespace AttributeAccess

namespace AttributeRecord

theorem mem_newestFirst {r : AttributeRecord} {slot : Nat} :
    slot ∈ r.newestFirst ↔ slot ∈ r.slots :=
  (List.mergeSort_perm _ _).mem_iff

theorem pairwise_newestFirst (r : AttributeRecord) :
    r.newestFirst.Pairwise fun slot older => older ≤ slot := by
  simpa [newestFirst] using @List.pairwise_mergeSort Nat (fun a b => b ≤ a) (by simp; omega)
    (by simp; omega) r.slots

theorem newestFirst_eq_nil_iff {r : AttributeRecord} : r.newestFirst = [] ↔ r.slots = [] := by
  rw [newestFirst, ← List.length_eq_zero_iff, List.length_mergeSort, List.length_eq_zero_iff]

theorem current?_eq_head? (r : AttributeRecord) : r.current? = r.newestFirst.head? := by
  cases hfirst : r.newestFirst with
  | nil => exact List.max?_eq_none_iff.2 (newestFirst_eq_nil_iff.1 hfirst)
  | cons slot older =>
    have hsorted := r.pairwise_newestFirst
    have hmem : ∀ other, other ∈ slot :: older ↔ other ∈ r.slots := fun _ => hfirst ▸ mem_newestFirst
    rw [hfirst] at hsorted
    refine List.max?_eq_some_iff.2 ⟨(hmem slot).1 List.mem_cons_self, fun other hother => ?_⟩
    rcases List.mem_cons.1 ((hmem other).2 hother) with rfl | holder
    · exact Nat.le_refl _
    · exact (List.pairwise_cons.1 hsorted).1 other holder

end AttributeRecord

namespace Registry

/-- The attribute has a current slot, which is the first of its slots. -/
def HasCurrent (r : Registry) (a : Attribute) : Prop :=
  ∃ slot older, r.slots a = .ok (slot :: older) ∧ r.currentSlot a = .ok slot

variable {r s : Registry} {a : Attribute} {record : AttributeRecord}

/-! ## One state -/

theorem slots_eq_ok (h : r.attributes.get? a = some record) :
    r.slots a = .ok record.newestFirst := by
  simp only [slots, Registry.record, h, Except.map]

theorem currentSlot_eq_error (h : r.attributes.get? a = some record) (hnil : record.slots = []) :
    r.currentSlot a = .error (.attributeWithoutSlots a) := by
  simp only [currentSlot, Registry.record, h, AttributeRecord.current?, hnil, List.max?_nil, bind,
    Except.bind]

theorem hasCurrent_iff (h : r.attributes.get? a = some record) :
    r.HasCurrent a ↔ record.slots ≠ [] := by
  constructor
  · rintro ⟨slot, older, -, hcurrent⟩ hnil
    rw [currentSlot_eq_error h hnil] at hcurrent
    cases hcurrent
  · intro hne
    obtain ⟨slot, older, hfirst⟩ :=
      List.exists_cons_of_ne_nil (mt AttributeRecord.newestFirst_eq_nil_iff.1 hne)
    have hmax : record.current? = some slot := by
      rw [AttributeRecord.current?_eq_head?, hfirst, List.head?_cons]
    exact ⟨slot, older, hfirst ▸ slots_eq_ok h, currentSlot_eq_ok h hmax⟩

/-! ## Histories without slots -/

/-- An operation gives a slot to every record that it touches. -/
theorem get?_of_apply_of_nil {op : Operation} (h : r.apply op = .ok s)
    (hs : s.attributes.get? a = some record) (hnil : record.slots = []) :
    r.attributes.get? a = some record := by
  cases op with
  | addAxis axis =>
    rcases get?_addAxis h a with ⟨-, slot, hint, hnew, -, -⟩ | ⟨-, hold⟩
    · rw [hs] at hnew
      cases hnew
      cases hnil
    · exact hold ▸ hs
  | rotate b =>
    rcases get?_rotate h a with ⟨-, old, -, hnew⟩ | ⟨-, hold⟩
    · rw [hs] at hnew
      cases hnew
      simp at hnil
    · exact hold ▸ hs

theorem get?_of_run_of_nil {ops : List Operation} (h : (r.run ops).attributes.get? a = some record)
    (hnil : record.slots = []) : r.attributes.get? a = some record :=
  run_induction (P := fun s => s.attributes.get? a = some record → r.attributes.get? a = some record)
    (fun happly hr hs => hr (get?_of_apply_of_nil happly hs hnil)) id ops h

/-! ## Documents -/

theorem values_toDocument (h : ∀ a ∈ r.attributes.keys, a.Representable) :
    r.toDocument.attributes.values = r.attributes.values := by
  simp [OrderedMap.values, entries_toDocument h, Function.comp_def]

/-- What has no slots in the registry of a document has none in the document. -/
theorem nil_mem_histories_iff {p : Payload} {d : Document} (h : Document.decode p = .ok d) :
    [] ∈ d.histories ↔ ∃ a record, (ofDocument d).attributes.get? a = some record ∧
      record.slots = [] := by
  have hread := decode_of_document h
  have hvalues := values_toDocument (Storable.decode hread).representable
  have hmem : (∃ a record, (ofDocument d).attributes.get? a = some record ∧ record.slots = []) ↔
      ∃ record ∈ (ofDocument d).toDocument.attributes.values, record.slots = [] := by
    simp only [hvalues, OrderedMap.mem_values_iff]
    constructor
    · rintro ⟨a, record, ha, hnil⟩
      exact ⟨record, ⟨a, ha⟩, hnil⟩
    · rintro ⟨record, ⟨a, ha⟩, hnil⟩
      exact ⟨a, record, ha, hnil⟩
  rw [hmem]
  cases d with
  | current c =>
    show [] ∈ c.attributes.values.map (·.slots) ↔
      ∃ record ∈ (ofCurrent c).toDocument.attributes.values, record.slots = []
    rw [toDocument_of_current h, List.mem_map]
  | legacy l =>
    show [] ∈ l.slots.values ↔
      ∃ record ∈ (ofLegacy l).toDocument.attributes.values, record.slots = []
    rw [toDocument_of_legacy h]
    have hsorted : ∀ slots : List Nat, slots.mergeSort = [] ↔ slots = [] := fun slots => by
      rw [← List.length_eq_zero_iff, List.length_mergeSort, List.length_eq_zero_iff]
    simp [LegacyDocument.upgraded, OrderedMap.values, hsorted]

/-- **An attribute lacks a current slot only if its document gave it none.** From the registry of a
document of either layout, every attribute has a current slot in every state of every run, and it is
the first of its slots, exactly if no history of the document is empty. Otherwise an attribute that
has none is the one that the document describes, and asking for its current slot is the error that
names it. -/
theorem hasCurrent_run_iff {p : Payload} {d : Document} (h : Document.decode p = .ok d) :
    let start := ofDocument d
    decode p = .ok start ∧
    ((∀ ops, ∀ a ∈ (start.run ops).attributes.keys, (start.run ops).HasCurrent a) ↔
      [] ∉ d.histories) ∧
    ∀ ops, ∀ a ∈ (start.run ops).attributes.keys, ¬ (start.run ops).HasCurrent a →
      (start.run ops).currentSlot a = .error (.attributeWithoutSlots a) ∧
      (start.run ops).attributes.get? a = start.attributes.get? a := by
  intro start
  refine ⟨decode_of_document h, ⟨fun hall hnil => ?_, fun hfull ops a ha => ?_⟩,
    fun ops a ha hnot => ?_⟩
  · obtain ⟨a, record, ha, hslots⟩ := (nil_mem_histories_iff h).1 hnil
    exact (hasCurrent_iff ha).1 (hall [] a (OrderedMap.mem_keys_iff.2 ⟨record, ha⟩)) hslots
  · obtain ⟨record, hrecord⟩ := OrderedMap.mem_keys_iff.1 ha
    refine (hasCurrent_iff hrecord).2 fun hslots => hfull ?_
    exact (nil_mem_histories_iff h).2 ⟨a, record, get?_of_run_of_nil hrecord hslots, hslots⟩
  · obtain ⟨record, hrecord⟩ := OrderedMap.mem_keys_iff.1 ha
    have hslots : record.slots = [] := not_not.1 (mt (hasCurrent_iff hrecord).2 hnot)
    have hstart := get?_of_run_of_nil hrecord hslots
    exact ⟨currentSlot_eq_error hrecord hslots, hrecord.trans hstart.symm⟩

/-- A document of the old layout with a history out of order. -/
theorem hasCurrent_run_iff_legacy :
    let d : LegacyDocument := ⟨5, 6, .ofList [("A".toText, ⟨["x".toText, "y".toText], true⟩)],
      .ofList [("A::x".toText, [5, 2]), ("A::y".toText, [3])]⟩
    Document.decode (.text d.toJson.compact) = .ok (.legacy d) ∧
      ∀ ops, ∀ a ∈ ((ofLegacy d).run ops).attributes.keys, ((ofLegacy d).run ops).HasCurrent a := by
  intro d
  have hdocument : Document.decode (.text d.toJson.compact) = .ok (.legacy d) :=
    Document.decode_toJson_legacy rfl rfl (by decide) (by decide)
  have hfull : [] ∉ (Document.legacy d).histories := by decide
  exact ⟨hdocument, (hasCurrent_run_iff hdocument).2.1.2 hfull⟩

/-- The axis lists an attribute whose history is empty, and the document is accepted. -/
theorem currentSlot_of_empty_history :
    let d : CurrentDocument := ⟨0, 1, .ofList [("A".toText, ⟨["a".toText], false⟩)],
      .ofList [("A::a".toText, ⟨[], .classic⟩)]⟩
    let a : Attribute := ⟨"A".toText, "a".toText⟩
    decode (.text d.toJson.compact) = .ok (ofCurrent d) ∧ a ∈ (ofCurrent d).attributes.keys ∧
      (ofCurrent d).slots a = .ok [] ∧
      (ofCurrent d).currentSlot a = .error (.attributeWithoutSlots a) := by
  intro d a
  have hrecord : (ofCurrent d).attributes.get? a = some ⟨[], .classic⟩ := by decide
  have hslots : (ofCurrent d).slots a = .ok [] := by
    rw [slots_eq_ok hrecord, AttributeRecord.newestFirst, List.mergeSort_nil]
  exact ⟨decode_toJson rfl (by decide) (by decide), by decide, hslots,
    currentSlot_eq_error hrecord rfl⟩

end Registry

end AttributeAccess
