import AttributeAccess.Proofs.Attribute
import AttributeAccess.Proofs.Registry.Freshness

/-!
# What a reload changes

A registry that was written is read back with its counters and its axes, unless a surrogate in the
name of an axis is replaced on the way. Its attributes pass through their texts: they come back as
they were when all of them are representable (`ofCurrent_toDocument`), and otherwise the registry
read is a different one, since all that is read is representable
(`representable_of_mem_keys_keyed`).
-/

namespace AttributeAccess.Registry

/-! ## Keys on the way -/

theorem mem_keys_toDocument {r : Registry} {t : Text} :
    t ∈ r.toDocument.attributes.keys ↔ ∃ a ∈ r.attributes.keys, a.text = t := by
  unfold toDocument
  rw [OrderedMap.mem_keys_ofList]
  simp [OrderedMap.keys]

theorem mem_keys_keyed {α : Type} {m : OrderedMap Text α} {a : Attribute} :
    a ∈ (keyed m).keys ↔ ∃ key ∈ m.keys, Attribute.ofText? key = some a := by
  unfold keyed
  rw [OrderedMap.mem_keys_ofList]
  simp only [List.mem_map, List.mem_filterMap, OrderedMap.keys]
  constructor
  · rintro ⟨⟨b, v⟩, ⟨⟨key, w⟩, he, hentry⟩, rfl⟩
    obtain ⟨c, hkey, heq⟩ := Option.map_eq_some_iff.1 hentry
    cases heq
    exact ⟨key, ⟨_, he, rfl⟩, hkey⟩
  · rintro ⟨key, ⟨⟨_, v⟩, he, rfl⟩, hkey⟩
    exact ⟨(a, v), ⟨_, he, by simp [hkey]⟩, rfl⟩

theorem representable_of_mem_keys_keyed {α : Type} {m : OrderedMap Text α} {a : Attribute}
    (h : a ∈ (keyed m).keys) : a.Representable := by
  obtain ⟨key, -, hkey⟩ := mem_keys_keyed.1 h
  exact Attribute.representable_of_ofText? hkey

/-- Every attribute of a registry that is new or was read is representable. -/
theorem representable_of_origin {r : Registry} (h : Origin r) {a : Attribute}
    (ha : a ∈ r.attributes.keys) : a.Representable := by
  cases h with
  | new h =>
    obtain ⟨-, -, rfl⟩ := new_eq_ok.1 h
    cases ha
  | document h =>
    obtain ⟨d, -, rfl⟩ := decode_eq_ok.1 h
    cases d <;> exact representable_of_mem_keys_keyed ha

/-! ## There and back -/

/-- Attributes that are all representable have different texts. -/
theorem entries_toDocument {r : Registry} (h : ∀ a ∈ r.attributes.keys, a.Representable) :
    r.toDocument.attributes.entries =
      r.attributes.entries.map fun (a, record) => (a.text, record) := by
  refine OrderedMap.entries_ofList ?_
  have hkeys : (r.attributes.entries.map fun (a, record) => (a.text, record)).map Prod.fst =
      r.attributes.keys.map Attribute.text := by
    simp [OrderedMap.keys, Function.comp_def]
  rw [hkeys]
  exact r.attributes.nodup_keys.map_on fun a ha b hb heq => (h a ha).eq_of_text_eq (h b hb) heq

theorem ofCurrent_toDocument {r : Registry} (h : ∀ a ∈ r.attributes.keys, a.Representable) :
    ofCurrent r.toDocument = r := by
  have hentries : r.toDocument.attributes.entries.filterMap (fun (key, record) =>
      (Attribute.ofText? key).map fun a => (a, record)) = r.attributes.entries := by
    rw [entries_toDocument h, List.filterMap_map]
    refine (List.filterMap_congr ?_).trans List.filterMap_some
    rintro ⟨a, record⟩ he
    have ha : Attribute.ofText? a.text = some a := h a (List.mem_map_of_mem (f := Prod.fst) he)
    simp [ha]
  have hattributes : keyed r.toDocument.attributes = r.attributes := by
    unfold keyed
    rw [hentries, OrderedMap.ofList_entries]
  show (⟨r.last, r.maximum, r.axes, keyed r.toDocument.attributes⟩ : Registry) = r
  rw [hattributes]

theorem same_ofCurrent_toDocument_iff {r : Registry} :
    (ofCurrent r.toDocument).same r = true ↔ ∀ a ∈ r.attributes.keys, a.Representable := by
  constructor
  · -- what was read holds representable attributes only, and they are the same ones
    intro hsame a ha
    simp only [same, Bool.and_eq_true, OrderedMap.sameEntries_iff] at hsame
    have hperm : (ofCurrent r.toDocument).attributes.keys.Perm r.attributes.keys :=
      hsame.2.map Prod.fst
    exact representable_of_mem_keys_keyed (hperm.mem_iff.2 ha)
  · intro h
    rw [ofCurrent_toDocument h]
    simp [same, OrderedMap.sameEntries_iff]

/-! ## Every run -/

theorem Counted.apply {r s : Registry} {op : Operation} (h : r.apply op = .ok s)
    (hr : r.Counted) : s.Counted := by
  have hnext : r.next (.operation op) = s := by
    simp [Registry.next, after, h]
  exact hnext ▸ hr.next (.operation op)

theorem Counted.addAxis {r s : Registry} {axis : Axis} (hr : r.Counted)
    (h : r.addAxis axis = .ok s) : s.Counted := by
  have happly : r.apply (.addAxis axis) = .ok s := h
  exact Counted.apply happly hr

theorem Counted.run {r : Registry} (hr : r.Counted) (ops : List Operation) : (r.run ops).Counted :=
  run_induction Counted.apply hr ops

theorem keys_axes_of_same {r s : Registry} (h : s.same r = true) {axis : Text} :
    axis ∈ s.axes.keys ↔ axis ∈ r.axes.keys := by
  simp only [same, Bool.and_eq_true, OrderedMap.sameEntries_iff] at h
  exact (h.1.2.map Prod.fst).mem_iff

/-- **A written registry comes back as it was exactly when its attributes are representable and the
names of its axes are well-formed.** With such axes it is always read, with the counters and the axes
that it had. A registry that is read as the same has its entries in the same order, too. -/
theorem decode_encode_run {start : Registry} (h : Origin start) (ops : List Operation) {t : Text}
    (ht : (start.run ops).encode = .ok t) :
    ((∀ axis ∈ (start.run ops).axes.keys, axis.WellFormed) →
      ∃ s, decode (.text t) = .ok s ∧ s.last = (start.run ops).last ∧
        s.maximum = (start.run ops).maximum ∧ s.axes = (start.run ops).axes) ∧
    ((∃ s, decode (.text t) = .ok s ∧ s.same (start.run ops) = true) ↔
      (∀ axis ∈ (start.run ops).axes.keys, axis.WellFormed) ∧
        ∀ a ∈ (start.run ops).attributes.keys, a.Representable) ∧
    ∀ s, decode (.text t) = .ok s → s.same (start.run ops) = true → s = start.run ops := by
  have hmax := ((Counted.origin h).run ops).maximum_le
  -- what is read has well-formed names, so a registry that is read as the same had them before
  have hkeys : ∀ s, decode (.text t) = .ok s → s.same (start.run ops) = true →
      ∀ axis ∈ (start.run ops).axes.keys, axis.WellFormed := by
    intro s hs hsame axis haxis
    exact (wellFormed_axes_of_decode hs).keys axis ((keys_axes_of_same hsame).2 haxis)
  have hread : ∀ s, decode (.text t) = .ok s → s.same (start.run ops) = true →
      s = ofCurrent (start.run ops).toDocument := by
    intro s hs hsame
    rw [decode_encode ht (hkeys s hs hsame) hmax] at hs
    exact (Except.ok.inj hs).symm
  refine ⟨fun hwell => ?_, ⟨?_, ?_⟩, fun s hs hsame => ?_⟩
  · exact ⟨_, decode_encode ht hwell hmax, rfl, rfl, rfl⟩
  · rintro ⟨s, hs, hsame⟩
    refine ⟨hkeys s hs hsame, same_ofCurrent_toDocument_iff.1 ?_⟩
    rwa [← hread s hs hsame]
  · rintro ⟨hwell, hrep⟩
    exact ⟨_, decode_encode ht hwell hmax, same_ofCurrent_toDocument_iff.2 hrep⟩
  · have heq := hread s hs hsame
    rw [heq] at hsame ⊢
    exact ofCurrent_toDocument (same_ofCurrent_toDocument_iff.1 hsame)

/-- An attribute whose name starts with a colon is representable; it comes back rotated. -/
theorem decode_encode_run_colon :
    let ops : List Operation := [.addAxis ⟨"A".toText, [(":b".toText, .hybridized)], true⟩,
      .rotate ⟨"A".toText, ":b".toText⟩]
    let r := (empty 3).run ops
    Origin (empty 3) ∧ r.encode = .ok r.toDocument.toJson.compact ∧ r.issued = [1, 2] ∧
      decode (.text r.toDocument.toJson.compact) = .ok r := by
  intro ops r
  have horigin : Origin (empty 3) := .new (show Registry.new 3 = .ok (empty 3) from rfl)
  have ht : r.encode = .ok r.toDocument.toJson.compact := encode_of_checked rfl (by decide)
  obtain ⟨-, hsame, heq⟩ := decode_encode_run horigin ops ht
  obtain ⟨s, hs, hsame⟩ := hsame.2 ⟨by decide, by decide⟩
  rw [heq s hs hsame] at hs
  exact ⟨horigin, ht, by decide, hs⟩

/-- One axis that ends with a colon and one attribute that starts with one: both attributes are
written as `A:::b`, and the one that was there first is lost with its slot. -/
theorem decode_encode_merged :
    let r := (empty 2).run [.addAxis ⟨"A:".toText, [("b".toText, .classic)], false⟩,
      .addAxis ⟨"A".toText, [(":b".toText, .classic)], false⟩]
    r.encode = .ok r.toDocument.toJson.compact ∧ r.issued = [1, 2] ∧
      ∃ s, decode (.text r.toDocument.toJson.compact) = .ok s ∧ s.issued = [2] ∧
        s.same r = false := by
  intro r
  have ht : r.encode = .ok r.toDocument.toJson.compact := encode_of_checked rfl (by decide)
  exact ⟨ht, by decide, _, decode_encode ht (by decide) (by decide), by decide, by decide⟩

end AttributeAccess.Registry
