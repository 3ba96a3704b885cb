import AttributeAccess.Proofs.Registry.Agreement

/-!
# Registries carried over

A registry that was read can always be written. `Storable` says why: what it lists and what it
registers agree as texts, its slots are counted, its attributes are representable, and its names are
well-formed. Operations keep all four, except that an axis has to bring representable attributes and
well-formed names. A storable registry is written in the current layout and read back as it was
(`Storable.exists_encode`).

So reading and writing carries a document over, once and for all (`decode_migrates`). A document of
the current layout comes out as it went in, since its keys are split into attributes and joined
again without loss (`toDocument_ofCurrent`); one of the old layout comes out as
`LegacyDocument.upgraded`.
-/

namespace AttributeAccess

/-- The document of the current layout that takes the place of one of the old layout. -/
def LegacyDocument.upgraded (d : LegacyDocument) : CurrentDocument :=
  ⟨d.last, d.maximum, d.axes, d.slots.mapValues fun slots => ⟨slots.mergeSort, .classic⟩⟩

/-- Sorting restores an order that ascends. -/
theorem mergeSort_eq_of_perm {slots history : List Nat} (hperm : slots.Perm history)
    (h : history.Pairwise (· < ·)) : slots.mergeSort = history := by
  have hsorted : slots.mergeSort.Pairwise (· ≤ ·) := by
    simpa using @List.pairwise_mergeSort Nat (fun a b => a ≤ b) (by simp; omega)
      (by simp; omega) slots
  exact List.Perm.eq_of_pairwise (fun _ _ _ _ => Nat.le_antisymm) hsorted (h.imp Nat.le_of_lt)
    ((List.mergeSort_perm slots _).trans hperm)

namespace Registry

/-! ## Keys split and joined -/

section
variable {α : Type} {m : OrderedMap Text α}

/-- Keys that differ are no texts of the same attribute, so no entry replaces another one. -/
theorem entries_keyed (m : OrderedMap Text α) :
    (keyed m).entries =
      m.entries.filterMap fun (key, v) => (Attribute.ofText? key).map fun a => (a, v) := by
  refine OrderedMap.entries_ofList ?_
  have hkeys : (m.entries.filterMap fun (key, v) =>
      (Attribute.ofText? key).map fun a => (a, v)).map Prod.fst =
        m.keys.filterMap Attribute.ofText? := by
    simp [OrderedMap.keys, List.map_filterMap, List.filterMap_map, Function.comp_def]
  rw [hkeys]
  refine m.nodup_keys.filterMap fun t u a ht hu => ?_
  rw [← Attribute.text_of_ofText? ht, ← Attribute.text_of_ofText? hu]

theorem get?_keyed {a : Attribute} {v : α} :
    (keyed m).get? a = some v ↔ a.Representable ∧ m.get? a.text = some v := by
  rw [OrderedMap.get?_eq_some_iff, OrderedMap.get?_eq_some_iff, entries_keyed, List.mem_filterMap]
  constructor
  · rintro ⟨⟨key, w⟩, he, hread⟩
    obtain ⟨b, hb, heq⟩ := Option.map_eq_some_iff.1 hread
    cases heq
    exact ⟨Attribute.representable_of_ofText? hb, Attribute.text_of_ofText? hb ▸ he⟩
  · rintro ⟨ha, he⟩
    exact ⟨(a.text, v), he, Option.map_eq_some_iff.2 ⟨a, ha, rfl⟩⟩

/-- Keys that are all attributes come back as their texts. -/
theorem map_text_entries_keyed (h : Consistency.malformedKey? m.keys = none) :
    (keyed m).entries.map (fun (a, v) => (a.text, v)) = m.entries := by
  rw [entries_keyed, List.map_filterMap]
  refine (List.filterMap_congr ?_).trans List.filterMap_some
  rintro ⟨key, v⟩ he
  have hkey : key ∈ m.keys := List.mem_map_of_mem (f := Prod.fst) he
  obtain ⟨a, ha⟩ := Option.isSome_iff_exists.1 (Consistency.malformedKey?_eq_none.1 h key hkey)
  simp [ha, Attribute.text_of_ofText? ha]

end

theorem toDocument_ofCurrent {d : CurrentDocument}
    (h : Consistency.malformedKey? d.attributes.keys = none) : (ofCurrent d).toDocument = d := by
  unfold toDocument ofCurrent
  rw [map_text_entries_keyed h, OrderedMap.ofList_entries]

theorem toDocument_ofLegacy {d : LegacyDocument}
    (h : Consistency.malformedKey? d.slots.keys = none) : (ofLegacy d).toDocument = d.upgraded := by
  have hkeys : Consistency.malformedKey? d.upgraded.attributes.keys = none := by
    rwa [LegacyDocument.upgraded, OrderedMap.keys_mapValues]
  exact toDocument_ofCurrent hkeys

/-! ## Well-formed names -/

/-- An axis with well-formed names keeps the names of a registry well-formed. -/
theorem wellFormed_axes_addAxis {r s : Registry} {axis : Axis} (hr : r.axes.WellFormed)
    (h : r.addAxis axis = .ok s) (haxis : axis.Named) : s.axes.WellFormed := by
  refine ⟨fun name hname => ?_, fun record hrecord => ?_⟩
  · obtain ⟨record, hget⟩ := OrderedMap.mem_keys_iff.1 hname
    rw [axes_addAxis h] at hget
    split at hget
    · next heq => exact heq ▸ haxis.1.1
    · exact hr.keys name (OrderedMap.mem_keys_iff.2 ⟨record, hget⟩)
  · obtain ⟨name, hget⟩ := OrderedMap.mem_values_iff.1 hrecord
    rw [axes_addAxis h] at hget
    split at hget
    · obtain rfl := Option.some.inj hget
      exact fun name hname => (haxis.2 name hname).1
    · exact hr.lists record (OrderedMap.mem_values_iff.2 ⟨name, hget⟩)

/-! ## Registries that can be kept -/

/-- The registry is written and read back without loss. -/
structure Storable (r : Registry) : Prop where
  agreeing : r.Agreeing
  counted : r.Counted
  representable : ∀ a ∈ r.attributes.keys, a.Representable
  wellFormed : r.axes.WellFormed

namespace Storable

variable {r s : Registry}

theorem decode {p : Payload} (h : Registry.decode p = .ok r) : r.Storable where
  agreeing := .decode h
  counted := .decode h
  representable := fun _ ha => representable_of_origin (.document h) ha
  wellFormed := wellFormed_axes_of_decode h

theorem addAxis {axis : Axis} (hr : r.Storable) (h : r.addAxis axis = .ok s)
    (hnames : ∀ name ∈ axis.names, Attribute.Representable ⟨axis.name, name⟩)
    (haxis : axis.Named) : s.Storable where
  agreeing := hr.agreeing.addAxis h
  counted := hr.counted.addAxis h
  representable := by
    rintro ⟨axis, name⟩ ha
    rcases (mem_keys_addAxis h).1 ha with ⟨rfl, hname⟩ | hold
    · exact hnames name hname
    · exact hr.representable _ hold
  wellFormed := wellFormed_axes_addAxis hr.wellFormed h haxis

theorem rotate {a : Attribute} (hr : r.Storable) (h : r.rotate a = .ok s) : s.Storable where
  agreeing := hr.agreeing.rotate h
  counted := by
    have happly : r.apply (.rotate a) = .ok s := h
    exact Counted.apply happly hr.counted
  representable := fun _ hb => hr.representable _ ((mem_keys_rotate h).1 hb)
  wellFormed := by
    obtain ⟨-, record, -, rfl⟩ := rotate_eq_ok.1 h
    exact hr.wellFormed

theorem exists_encode (hr : r.Storable) :
    ∃ t, r.encode = .ok t ∧ Document.decode (.text t) = .ok (.current r.toDocument) ∧
      Registry.decode (.text t) = .ok r := by
  have hmax := hr.counted.maximum_le
  have hchecked := (checked_toDocument hr.agreeing hr.counted).2 fun a ha =>
    (hr.representable a ha).writable
  refine ⟨_, encode_of_checked hchecked hr.wellFormed,
    Document.decode_toJson hchecked hr.wellFormed hmax, ?_⟩
  rw [decode_toJson hchecked hr.wellFormed hmax, ofCurrent_toDocument hr.representable]

end Storable

/-! ## Every document -/

theorem toDocument_of_current {p : Payload} {d : CurrentDocument}
    (h : Document.decode p = .ok (.current d)) : (ofCurrent d).toDocument = d := by
  obtain ⟨v, -, -, hcons⟩ := Document.decode_eq_ok.1 h
  exact toDocument_ofCurrent (Consistency.malformedKey?_eq_none_iff.2 hcons.keys)

theorem toDocument_of_legacy {p : Payload} {d : LegacyDocument}
    (h : Document.decode p = .ok (.legacy d)) : (ofLegacy d).toDocument = d.upgraded := by
  obtain ⟨v, -, -, hcons⟩ := Document.decode_eq_ok.1 h
  exact toDocument_ofLegacy (Consistency.malformedKey?_eq_none_iff.2 hcons.keys)

/-- **Carrying a document over succeeds, and once is enough.** The registry of any document that is
read can be written. Its text is a document of the current layout, which is read as the same
registry, and that registry is written as the same text. What is written says what the document
said: the same document if its layout was the current one, otherwise the upgraded one. -/
theorem decode_migrates {p : Payload} {r : Registry} (h : decode p = .ok r) :
    (∃ t, r.encode = .ok t ∧ Document.decode (.text t) = .ok (.current r.toDocument) ∧
      decode (.text t) = .ok r ∧ ∀ s, decode (.text t) = .ok s → s.encode = .ok t) ∧
    (∀ d, Document.decode p = .ok (.current d) → r.toDocument = d) ∧
    ∀ d, Document.decode p = .ok (.legacy d) → r.toDocument = d.upgraded := by
  have hread : ∀ d, Document.decode p = .ok d → r = ofDocument d := by
    intro d hd
    rw [decode_of_document hd] at h
    exact (Except.ok.inj h).symm
  obtain ⟨t, ht, hcurrent, hback⟩ := (Storable.decode h).exists_encode
  refine ⟨⟨t, ht, hcurrent, hback, fun s hs => ?_⟩, fun d hd => ?_, fun d hd => ?_⟩
  · rw [hback] at hs
    cases hs
    exact ht
  · rw [hread _ hd]
    exact toDocument_of_current hd
  · rw [hread _ hd]
    exact toDocument_of_legacy hd

/-- A document of the old layout: a history out of order and an empty one, and the axis `A:` whose
attribute `b` is read as `:b` on an axis that is not there. -/
theorem decode_migrates_legacy :
    let d : LegacyDocument := ⟨5, 7,
      .ofList [("\"É".toText, ⟨["x y".toText], true⟩), ("A:".toText, ⟨["b".toText], false⟩)],
      .ofList [("A:::b".toText, [5, 2]), ("\"É::x y".toText, [])]⟩
    decode (.text d.toJson.compact) = .ok (ofLegacy d) ∧
      (ofLegacy d).history ⟨"A".toText, ":b".toText⟩ = [2, 5] ∧
      (∃ t, (ofLegacy d).encode = .ok t ∧ decode (.text t) = .ok (ofLegacy d)) ∧
      (ofLegacy d).toDocument = d.upgraded := by
  intro d
  have hdocument : Document.decode (.text d.toJson.compact) = .ok (.legacy d) :=
    Document.decode_toJson_legacy rfl rfl (by decide) (by decide)
  have hread : decode (.text d.toJson.compact) = .ok (ofLegacy d) := decode_of_document hdocument
  obtain ⟨⟨t, ht, -, hback, -⟩, -, hlegacy⟩ := decode_migrates hread
  have hsorted : [5, 2].mergeSort = [2, 5] := mergeSort_eq_of_perm (by decide) (by decide)
  exact ⟨hread, hsorted, ⟨t, ht, hback⟩, hlegacy d hdocument⟩

end Registry

end AttributeAccess
