import AttributeAccess.Proofs.Registry.Ledger
import AttributeAccess.Proofs.Registry.Reload

/-!
# Axes and attributes in agreement

A document is checked by texts: what its axes list and what has slots have to be written alike.
`Agreeing` says this of a registry. It holds of every registry that is new or was read, and
operations keep it (`Agreeing.run`). Attributes that differ may be written alike, so it does not say
that the registered attributes are the listed ones. It leaves two reasons not to write a registry, a
name that makes the text of an attribute unreadable and a name in a list that is not well-formed
(`encode_isOk_iff`).
-/

namespace AttributeAccess.Registry

/-- No axis repeats a name, and the texts of the attributes that the axes list are the texts of
those that are registered. -/
structure Agreeing (r : Registry) : Prop where
  distinct : ∀ axis record, r.axes.get? axis = some record → record.names.Nodup
  texts : ∀ t, (∃ a, r.Lists a ∧ a.text = t) ↔ ∃ a ∈ r.attributes.keys, a.text = t

theorem mem_listed_iff {r : Registry} {t : Text} :
    t ∈ Consistency.listed r.axes ↔ ∃ a, r.Lists a ∧ a.text = t := by
  rw [Consistency.mem_listed]
  constructor
  · rintro ⟨axis, record, hget, name, hname, ht⟩
    exact ⟨⟨axis, name⟩, ⟨record, hget, hname⟩, ht⟩
  · rintro ⟨a, ⟨record, hget, hname⟩, ht⟩
    exact ⟨a.axis, record, hget, a.name, hname, ht⟩

/-! ## Registries that were read -/

/-- Keys that are all attributes are the texts of what is read from them. -/
theorem texts_keyed {α : Type} {m : OrderedMap Text α}
    (h : Consistency.malformedKey? m.keys = none) {t : Text} :
    (∃ a ∈ (keyed m).keys, a.text = t) ↔ t ∈ m.keys := by
  simp only [mem_keys_keyed]
  constructor
  · rintro ⟨a, ⟨key, hkey, hread⟩, rfl⟩
    exact Attribute.text_of_ofText? hread ▸ hkey
  · intro ht
    obtain ⟨a, ha⟩ := Option.isSome_iff_exists.1 (Consistency.malformedKey?_eq_none.1 h t ht)
    exact ⟨a, ⟨t, ht, ha⟩, Attribute.text_of_ofText? ha⟩

theorem texts_ofDocument {d : Document} (h : KeysSplit d.keys) {t : Text} :
    (∃ a ∈ (ofDocument d).attributes.keys, a.text = t) ↔ t ∈ d.keys := by
  rw [← Consistency.malformedKey?_eq_none_iff] at h
  cases d with
  | current d => exact texts_keyed h
  | legacy d =>
    have hkeys : (d.slots.mapValues fun slots =>
        (⟨slots.mergeSort, .classic⟩ : AttributeRecord)).keys = d.slots.keys :=
      OrderedMap.keys_mapValues ..
    show _ ↔ t ∈ d.slots.keys
    rw [← hkeys]
    refine texts_keyed ?_
    rwa [hkeys]

namespace Agreeing

variable {r s : Registry}

theorem decode {p : Payload} (h : Registry.decode p = .ok r) : r.Agreeing := by
  obtain ⟨d, hd, rfl⟩ := decode_eq_ok.1 h
  obtain ⟨v, -, -, hcons⟩ := Document.decode_eq_ok.1 hd
  refine ⟨?_, fun t => ?_⟩
  · rw [axes_ofDocument]
    exact hcons.names
  · rw [← mem_listed_iff, Consistency.mem_listed, axes_ofDocument, hcons.listed,
      texts_ofDocument hcons.keys]

/-- Where the registered attributes are the listed ones, their texts are the same. -/
theorem of_gapless (h : r.Gapless) : r.Agreeing := by
  refine ⟨h.distinct, fun t => ?_⟩
  simp only [← h.registered, OrderedMap.contains_iff, OrderedMap.mem_keys_iff]

theorem origin (h : Origin r) : r.Agreeing := by
  cases h with
  | new h =>
    obtain ⟨-, -, rfl⟩ := new_eq_ok.1 h
    exact of_gapless (.empty _)
  | document h => exact decode h

/-! ## One operation -/

theorem addAxis {axis : Axis} (hr : r.Agreeing) (h : r.addAxis axis = .ok s) : s.Agreeing := by
  refine ⟨?_, fun t => ?_⟩
  · intro name record hget
    rw [axes_addAxis h] at hget
    split at hget
    · cases hget
      exact (addAxis_eq_ok.1 h).2.1
    · exact hr.distinct name record hget
  · -- the same attributes become listed and registered
    simp only [Gapless.lists_addAxis h, mem_keys_addAxis h, or_and_right, exists_or, hr.texts t]

theorem rotate {a : Attribute} (hr : r.Agreeing) (h : r.rotate a = .ok s) : s.Agreeing := by
  have haxes : s.axes = r.axes := by
    obtain ⟨-, record, -, rfl⟩ := rotate_eq_ok.1 h
    rfl
  refine ⟨haxes ▸ hr.distinct, fun t => ?_⟩
  simp only [Lists, haxes, mem_keys_rotate h]
  exact hr.texts t

theorem apply {op : Operation} (h : r.apply op = .ok s) (hr : r.Agreeing) : s.Agreeing := by
  cases op with
  | addAxis axis => exact hr.addAxis h
  | rotate a => exact hr.rotate h

theorem run (hr : r.Agreeing) (ops : List Operation) : (r.run ops).Agreeing :=
  run_induction apply hr ops

end Agreeing

/-! ## Writing -/

/-- Nothing is wrong with the document of a registry that agrees, unless with its keys. -/
theorem wrong?_toDocument {r : Registry} (hr : r.Agreeing) (hc : r.Counted) :
    r.toDocument.wrong? = none := by
  have hsub := slotsIn_toDocument_subperm r
  refine CurrentDocument.wrong?_eq_none.2 ⟨⟨hc.last_le, ?_, ?_⟩, ?_⟩
  · obtain ⟨kept, hperm, hsub⟩ := hsub
    exact hperm.nodup (hsub.nodup hc.distinct)
  · exact fun slot hslot => hc.le_last slot (hsub.subset hslot)
  · refine Consistency.badAxes?_eq_none.2 ⟨hr.distinct, fun t => ?_⟩
    rw [mem_keys_toDocument, ← hr.texts t]
    exact mem_listed_iff

theorem checked_toDocument {r : Registry} (hr : r.Agreeing) (hc : r.Counted) :
    r.toDocument.checked = .ok r.toDocument ↔ ∀ a ∈ r.attributes.keys, a.Writable := by
  simp only [CurrentDocument.checked_eq_ok, wrong?_toDocument hr hc,
    Consistency.malformedKey?_eq_none, mem_keys_toDocument, and_true]
  constructor
  · exact fun h a ha => h a.text ⟨a, ha, rfl⟩
  · rintro h t ⟨a, ha, rfl⟩
    exact h a ha

/-- A registry that agrees can be written exactly when its attributes can and the names that its
axes list are well-formed. -/
theorem encode_isOk_iff {r : Registry} (hr : r.Agreeing) (hc : r.Counted) :
    (∃ t, r.encode = .ok t) ↔
      (∀ a ∈ r.attributes.keys, a.Writable) ∧ r.axes.ListsWellFormed := by
  simp only [encode_eq_ok, exists_and_left, exists_eq, and_true, checked_toDocument hr hc]

end AttributeAccess.Registry
