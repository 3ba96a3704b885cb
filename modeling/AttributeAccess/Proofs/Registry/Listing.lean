import AttributeAccess.Proofs.Registry.Agreement

/-!
# What is listed and what is registered

The axes of a registry list attributes by name, and a registry looks its attributes up by axis and
name. For a registry that was read the two sets of texts are the same, and an attribute that is
listed is registered too unless its axis ends with a colon: then its text is that of another one
(`mem_keys_iff_of_lists`). So the two sets are the same exactly when no axis that lists something
ends with a colon (`decode_registered_iff`). Registries whose attributes are all representable come
back from their texts as they were, provided that no name holds a surrogate
(`decode_encode_of_representable`).
-/

namespace AttributeAccess.Registry

variable {r : Registry}

/-! ## Looking up -/

theorem slots_isOk_iff {a : Attribute} :
    (∃ slots, r.slots a = .ok slots) ↔ a ∈ r.attributes.keys := by
  rw [OrderedMap.mem_keys_iff]
  unfold slots record
  cases r.attributes.get? a <;> simp [Except.map]

theorem rotate_isOk_iff {a : Attribute} :
    (∃ s, r.rotate a = .ok s) ↔ r.last < r.maximum ∧ a ∈ r.attributes.keys := by
  simp only [rotate_eq_ok, OrderedMap.mem_keys_iff]
  constructor
  · rintro ⟨s, hlt, record, ha, -⟩
    exact ⟨hlt, record, ha⟩
  · rintro ⟨hlt, record, ha⟩
    exact ⟨_, hlt, record, ha, rfl⟩

/-! ## Registries that were read -/

theorem lists_of_mem_keys (hr : r.Agreeing) (hrep : ∀ a ∈ r.attributes.keys, a.Representable)
    (hends : ∀ a, r.Lists a → a.axis.getLast? ≠ some (.char ':')) {a : Attribute}
    (ha : a ∈ r.attributes.keys) : r.Lists a := by
  obtain ⟨b, hb, htext⟩ := (hr.texts a.text).2 ⟨a, ha, rfl⟩
  have heq : b = a := (hrep a ha).eq_of_axis_end htext (hends b hb)
  rwa [← heq]

/-- The text of a listed attribute is that of a registered one, which is the same attribute unless
the axis ends with a colon. -/
theorem mem_keys_iff_of_lists (hr : r.Agreeing) (hrep : ∀ a ∈ r.attributes.keys, a.Representable)
    {a : Attribute} (ha : r.Lists a) :
    a ∈ r.attributes.keys ↔ a.axis.getLast? ≠ some (.char ':') := by
  constructor
  · exact fun hkey => (hrep a hkey).axis_end
  · intro hend
    obtain ⟨b, hb, htext⟩ := (hr.texts a.text).1 ⟨a, ha, rfl⟩
    have heq : a = b := (hrep b hb).eq_of_axis_end htext.symm hend
    rwa [heq]

/-- **What was read registers what it lists, unless a listing axis ends with a colon.** For a
registry read from a document of either layout the registered attributes are the listed ones exactly
when no listed attribute has such an axis. Each listed attribute can be looked up, and rotated while
a slot is left, under the same condition on its own axis. -/
theorem decode_registered_iff {p : Payload} (h : decode p = .ok r) :
    ((∀ a, a ∈ r.attributes.keys ↔ r.Lists a) ↔
      ∀ a, r.Lists a → a.axis.getLast? ≠ some (.char ':')) ∧
    ∀ a, r.Lists a →
      ((∃ slots, r.slots a = .ok slots) ↔ a.axis.getLast? ≠ some (.char ':')) ∧
      ((∃ s, r.rotate a = .ok s) ↔ r.last < r.maximum ∧ a.axis.getLast? ≠ some (.char ':')) := by
  have hr := Agreeing.decode h
  have hrep : ∀ a ∈ r.attributes.keys, a.Representable :=
    fun a ha => representable_of_origin (.document h) ha
  refine ⟨⟨fun hsame a ha => ?_, fun hends a => ⟨?_, ?_⟩⟩, fun a ha => ?_⟩
  · exact (mem_keys_iff_of_lists hr hrep ha).1 ((hsame a).2 ha)
  · exact lists_of_mem_keys hr hrep hends
  · exact fun ha => (mem_keys_iff_of_lists hr hrep ha).2 (hends a ha)
  · rw [slots_isOk_iff, rotate_isOk_iff, mem_keys_iff_of_lists hr hrep ha]
    exact ⟨Iff.rfl, Iff.rfl⟩

/-- A document of the old layout: a name that starts with a colon, a history out of order and an
empty one, and an axis that ends with a colon but lists nothing. -/
theorem decode_registered_iff_legacy :
    let d : LegacyDocument := ⟨3, 4,
      .ofList [("A".toText, ⟨[":x".toText, "y".toText], true⟩), ("B:".toText, ⟨[], false⟩)],
      .ofList [("A::y".toText, [3, 1]), ("A:::x".toText, [])]⟩
    let a : Attribute := ⟨"A".toText, ":x".toText⟩
    decode (.text d.toJson.compact) = .ok (ofLegacy d) ∧ (ofLegacy d).Lists a ∧
      (∃ slots, (ofLegacy d).slots a = .ok slots) ∧ ∃ s, (ofLegacy d).rotate a = .ok s := by
  intro d a
  have hread : decode (.text d.toJson.compact) = .ok (ofLegacy d) :=
    decode_toJson_legacy rfl rfl (by decide) (by decide)
  have hlists : (ofLegacy d).Lists a := ⟨⟨[":x".toText, "y".toText], true⟩, by decide, by decide⟩
  obtain ⟨hslots, hrotate⟩ := (decode_registered_iff hread).2 a hlists
  exact ⟨hread, hlists, hslots.2 (by decide), hrotate.2 ⟨by decide, by decide⟩⟩

/-- The axis `A:` lists `b`, and what is registered is `:b` on an axis `A` that is not there. -/
theorem decode_lists_unregistered :
    let d : CurrentDocument := ⟨1, 2, .ofList [("A:".toText, ⟨["b".toText], false⟩)],
      .ofList [("A:::b".toText, ⟨[1], .classic⟩)]⟩
    let a : Attribute := ⟨"A:".toText, "b".toText⟩
    decode (.text d.toJson.compact) = .ok (ofCurrent d) ∧ (ofCurrent d).Lists a ∧
      (ofCurrent d).slots a = .error (.attributeNotFound a) ∧
      (ofCurrent d).attributes.keys = [⟨"A".toText, ":b".toText⟩] := by
  intro d a
  have hread : decode (.text d.toJson.compact) = .ok (ofCurrent d) :=
    decode_toJson rfl (by decide) (by decide)
  exact ⟨hread, ⟨⟨["b".toText], false⟩, by decide, by decide⟩, rfl, by decide⟩

/-! ## Registries that come back as they were -/

/-- **A registry whose attributes are representable comes back as it was.** After any run, from any
origin, it can be written; its text is read as a document of the current layout, and the registry of
that document is the one written, with its entries in the same order. All this holds exactly when
the names of its axes and the names that they list are well-formed. -/
theorem decode_encode_of_representable {start : Registry} (h : Origin start) (ops : List Operation)
    (hrep : ∀ a ∈ (start.run ops).attributes.keys, a.Representable) :
    (∃ t, (start.run ops).encode = .ok t ∧
      Document.decode (.text t) = .ok (.current (start.run ops).toDocument) ∧
      decode (.text t) = .ok (start.run ops)) ↔ (start.run ops).axes.WellFormed := by
  have hagree := (Agreeing.origin h).run ops
  have hcounted := (Counted.origin h).run ops
  constructor
  · rintro ⟨t, -, -, hback⟩
    exact wellFormed_axes_of_decode hback
  · intro haxes
    have hchecked := (checked_toDocument hagree hcounted).2 fun a ha => (hrep a ha).writable
    refine ⟨_, encode_of_checked hchecked haxes,
      Document.decode_toJson hchecked haxes hcounted.maximum_le, ?_⟩
    rw [decode_toJson hchecked haxes hcounted.maximum_le, ofCurrent_toDocument hrep]

/-- Names with quotes, line ends and characters beyond the first plane; two axes in an order that
is not theirs by name, and a history of two slots. -/
theorem decode_encode_of_representable_rotated :
    let a : Attribute := ⟨"B\n\"".toText, ":😀".toText⟩
    let ops : List Operation := [
      .addAxis ⟨a.axis, [(a.name, .hybridized), ("y".toText, .classic)], true⟩,
      .rotate a, .addAxis ⟨"A".toText, [], false⟩]
    let r := (empty 4).run ops
    Origin (empty 4) ∧ (∀ a ∈ r.attributes.keys, a.Representable) ∧ r.history a = [1, 3] ∧
      ∃ t, r.encode = .ok t ∧ decode (.text t) = .ok r := by
  intro a ops r
  have horigin : Origin (empty 4) := .new (show Registry.new 4 = .ok (empty 4) from rfl)
  have hrep : ∀ a ∈ r.attributes.keys, a.Representable := by decide
  obtain ⟨t, ht, -, hback⟩ := (decode_encode_of_representable horigin ops hrep).2 (by decide)
  exact ⟨horigin, hrep, by decide, t, ht, hback⟩

/-- The attribute is representable, its name is one surrogate, and the registry is not written. An
axis of that name, without attributes, is written under another name and read under that one. -/
theorem encode_surrogate :
    let a : Attribute := ⟨"A".toText, [.surrogate 0]⟩
    let r := (empty 1).run [.addAxis ⟨a.axis, [(a.name, .classic)], false⟩]
    let s := (empty 1).run [.addAxis ⟨a.name, [], false⟩]
    let renamed := (empty 1).run [.addAxis ⟨"\ufffd\ufffd\ufffd".toText, [], false⟩]
    (r.history a = [1] ∧ (∀ b ∈ r.attributes.keys, b.Representable) ∧
      r.encode = .error (.unencodable a.name)) ∧
    s.attributes.keys = [] ∧
      ∃ t, s.encode = .ok t ∧ decode (.text t) = .ok renamed ∧ renamed.same s = false := by
  intro a r s renamed
  have ht : renamed.encode = .ok renamed.toDocument.toJson.compact :=
    encode_of_checked rfl (by decide)
  have hread := decode_encode ht (by decide) (by decide)
  refine ⟨⟨by decide, by decide, rfl⟩, rfl, _, encode_eq_ok.2 ⟨rfl, by decide, rfl⟩, hread, ?_⟩
  decide

end AttributeAccess.Registry
