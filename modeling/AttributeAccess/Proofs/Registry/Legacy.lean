import AttributeAccess.Proofs.Registry.Migration

/-!
# Registries in the old layout

The old layout keeps all that a registry of classic hints holds. A document of that layout
`Describes` a registry when it has its counters, its axes and, under the text of each attribute,
the history of that attribute in some order. Histories that operations made ascend, so sorting
them restores their order, and reading such a document gives the registry it describes
(`decode_describes`). The current layout refuses the document first, for it has no version. Only
names with surrogates stand in the way: no payload holds a document that has them.
-/

namespace AttributeAccess

/-! ## Fields in any order -/

namespace LegacyDocument

theorem ofJson_of_perm {ms ns : List (Text × Json)} {d : LegacyDocument} (hperm : ms.Perm ns)
    (hd : (ns.map Prod.fst).Nodup) (h : ofJson (.object ns) = .ok d) :
    ofJson (.object ms) = .ok d := by
  obtain ⟨⟨hlast, hmax, u, w, haxes, hslots, hfields⟩, hright⟩ := ofJson_eq_ok.1 h
  exact ofJson_eq_ok.2 ⟨⟨hlast, hmax, u, w, haxes, hslots, hfields.of_perm hd hperm⟩, hright⟩

/-- The payload is the JSON object of the document, with its fields in any order. -/
def WrittenIn (d : LegacyDocument) (p : Payload) : Prop :=
  ∃ members ordered, p.readStrict? = some (.object members) ∧ d.toJson = .object ordered ∧
    members.Perm ordered

theorem decode_of_writtenIn {d : LegacyDocument} {p : Payload} (hp : d.WrittenIn p)
    (h : ofJson d.toJson = .ok d) : Document.decode p = .ok (.legacy d) := by
  obtain ⟨members, ordered, hread, hjson, hperm⟩ := hp
  have hordered : (ordered.map Prod.fst).Nodup := by
    cases hjson
    simp
  rw [hjson] at h
  exact Document.readPayload_eq_ok.2
    ⟨_, hread, Document.ofJson_eq_ok.2 (.inr ⟨d, rfl, ofJson_of_perm hperm hordered h⟩)⟩

theorem writtenIn_compact {d : LegacyDocument} (hwrong : d.wrong? = none)
    (hmax : d.maximum ≤ slotMaximum) (haxes : d.axes.WellFormed)
    {members ordered : List (Text × Json)} (hjson : d.toJson = .object ordered)
    (hperm : members.Perm ordered) : d.WrittenIn (.text (Json.object members).compact) := by
  have hreadable : Json.Readable 4 (.object members) := by
    have hordered := readable_toJson (ranged_of_wrong? hwrong hmax)
    rw [hjson] at hordered
    cases hordered with
    | object hvalues => exact .object fun e he => hvalues e (hperm.mem_iff.1 he)
  have hwell : (Json.object members).WellFormed := by
    have hordered := wellFormed_toJson haxes (wellFormed_keys hwrong haxes)
    rw [hjson] at hordered
    cases hordered with
    | object hnames hvalues =>
      exact .object (fun e he => hnames e (hperm.mem_iff.1 he))
        fun e he => hvalues e (hperm.mem_iff.1 he)
  exact ⟨members, ordered, Payload.readStrict?_compact hreadable hwell (by decide), hjson, hperm⟩

/-! ## Documents that describe a registry -/

/-- The slots under the text of an attribute, in the order of the document. -/
def history (d : LegacyDocument) (a : Attribute) : List Nat :=
  (d.slots.get? a.text).getD []

/-- The document says of the registry all but its hints. The order of the axes, of the attributes
and of the slots of each attribute is free. -/
structure Describes (d : LegacyDocument) (r : Registry) : Prop where
  last : d.last = r.last
  maximum : d.maximum = r.maximum
  axes : d.axes.sameEntries r.axes = true
  keys : d.slots.keys.Perm (r.attributes.keys.map Attribute.text)
  histories : ∀ a ∈ r.attributes.keys, (d.history a).Perm (r.history a)

end LegacyDocument

namespace Registry

variable {r s : Registry}

/-! ## The same registry -/

theorem same_iff :
    r.same s = true ↔ r.last = s.last ∧ r.maximum = s.maximum ∧
      (∀ axis, r.axes.get? axis = s.axes.get? axis) ∧
      ∀ a, r.attributes.get? a = s.attributes.get? a := by
  simp only [same, Bool.and_eq_true, beq_iff_eq, OrderedMap.sameEntries_iff_get?, and_assoc]

theorem Counted.of_same (hr : r.Counted) (h : s.same r = true) : s.Counted := by
  obtain ⟨hlast, hmax, -, hattributes⟩ := same_iff.1 h
  have hentries := OrderedMap.sameEntries_iff.1 (OrderedMap.sameEntries_iff_get?.2 hattributes)
  have hissued : s.issued.Perm r.issued := by
    simp only [issued, slotsIn_eq_flatMap]
    exact hentries.flatMap_right _
  refine .of_subperm hissued.subperm hr.distinct ?_ ?_ (hmax ▸ hr.maximum_le)
  · exact fun slot hslot => hlast ▸ hr.le_last slot hslot
  · rw [hlast, hmax]
    exact hr.last_le

theorem Agreeing.of_same (hr : r.Agreeing) (h : s.same r = true) : s.Agreeing := by
  obtain ⟨-, -, haxes, hattributes⟩ := same_iff.1 h
  refine ⟨fun axis record hget => hr.distinct axis record (haxes axis ▸ hget), fun t => ?_⟩
  simp only [Lists, OrderedMap.mem_keys_iff, haxes, hattributes]
  simpa only [Lists, OrderedMap.mem_keys_iff] using hr.texts t

end Registry

/-! ## Reading a description -/

/-- Upgrading sorts and makes no document wrong or right. -/
theorem LegacyDocument.wrong?_upgraded {d : LegacyDocument} :
    d.upgraded.wrong? = none ↔ d.wrong? = none := by
  have hslots : (slotsIn d.upgraded.attributes).Perm d.slots.values.flatten :=
    Registry.slotsIn_mapValues_perm d.slots .classic
  have hkeys : d.upgraded.attributes.keys = d.slots.keys := OrderedMap.keys_mapValues ..
  rw [CurrentDocument.wrong?_eq_none, LegacyDocument.wrong?_eq_none, hkeys]
  show (_ ∧ (slotsIn d.upgraded.attributes).Nodup ∧
    ∀ slot ∈ slotsIn d.upgraded.attributes, slot ≤ d.last) ∧ _ ↔ _
  simp only [hslots.nodup_iff, hslots.mem_iff]
  rfl

namespace LegacyDocument.Describes

variable {d : LegacyDocument} {r : Registry}

theorem mem_keys_iff (h : d.Describes r) {t : Text} :
    t ∈ d.slots.keys ↔ ∃ a ∈ r.attributes.keys, a.text = t := by
  rw [h.keys.mem_iff, List.mem_map]

theorem wellFormed_axes_iff (h : d.Describes r) : d.axes.WellFormed ↔ r.axes.WellFormed := by
  have hentries := OrderedMap.sameEntries_iff.1 h.axes
  simp only [Axes.wellFormed_iff, Axes.ListsWellFormed, OrderedMap.keys, OrderedMap.values,
    (hentries.map _).mem_iff]

theorem malformedKey?_eq_none (h : d.Describes r)
    (hrep : ∀ a ∈ r.attributes.keys, a.Representable) :
    Consistency.malformedKey? d.slots.keys = none := by
  refine Consistency.malformedKey?_eq_none.2 fun key hkey => ?_
  obtain ⟨a, ha, rfl⟩ := h.mem_keys_iff.1 hkey
  exact (hrep a ha).writable

/-- What is read under the text of an attribute is the record of that attribute. -/
theorem get?_ofLegacy (h : d.Describes r) (hr : r.Gapless)
    (hrep : ∀ a ∈ r.attributes.keys, a.Representable)
    (hhints : ∀ record ∈ r.attributes.values, record.hint = .classic) (a : Attribute) :
    (Registry.ofLegacy d).attributes.get? a = r.attributes.get? a := by
  have hread : ∀ record, (Registry.ofLegacy d).attributes.get? a = some record ↔
      a.Representable ∧ (d.slots.get? a.text).map (fun slots => ⟨slots.mergeSort, .classic⟩) =
        some record := by
    intro record
    rw [← OrderedMap.get?_mapValues]
    exact Registry.get?_keyed
  cases hget : r.attributes.get? a with
  | some record =>
    have ha : a ∈ r.attributes.keys := OrderedMap.mem_keys_iff.2 ⟨record, hget⟩
    obtain ⟨slots, hslots⟩ := OrderedMap.mem_keys_iff.1 (h.mem_keys_iff.2 ⟨a, ha, rfl⟩)
    have hperm : slots.Perm record.slots := by
      simpa [history, Registry.history, hslots, hget] using h.histories a ha
    have hclassic := hhints record (OrderedMap.mem_values_iff.2 ⟨a, hget⟩)
    rw [hread, hslots, Option.map_some,
      mergeSort_eq_of_perm hperm (hr.histories a record hget).2, ← hclassic]
    exact ⟨hrep a ha, rfl⟩
  | none =>
    refine Option.eq_none_iff_forall_ne_some.2 fun record hrecord => ?_
    obtain ⟨harep, hsome⟩ := (hread record).1 hrecord
    obtain ⟨slots, hslots, -⟩ := Option.map_eq_some_iff.1 hsome
    obtain ⟨b, hb, htext⟩ := h.mem_keys_iff.1 (OrderedMap.mem_keys_iff.2 ⟨slots, hslots⟩)
    -- texts tell representable attributes apart
    rw [(hrep b hb).eq_of_text_eq harep htext] at hb
    exact OrderedMap.get?_eq_none_iff.1 hget hb

theorem same_ofLegacy (h : d.Describes r) (hr : r.Gapless)
    (hrep : ∀ a ∈ r.attributes.keys, a.Representable)
    (hhints : ∀ record ∈ r.attributes.values, record.hint = .classic) :
    (Registry.ofLegacy d).same r = true :=
  Registry.same_iff.2 ⟨h.last, h.maximum, OrderedMap.sameEntries_iff_get?.1 h.axes,
    h.get?_ofLegacy hr hrep hhints⟩

end LegacyDocument.Describes

namespace Registry

/-- **The old layout says as much as the current one.** Take any run from an empty registry after
which all hints are classic and all attributes representable, and any document of the old layout
that describes it. If the names are well-formed, its text holds it, with its fields in any order.
From any payload that holds it, it is read as a document of the old layout, and the registry read is
the one described, slot by slot; the names are well-formed then. -/
theorem decode_describes {maximum : Int} {start : Registry}
    (hstart : Registry.new maximum = .ok start) (ops : List Operation)
    (hhints : ∀ record ∈ (start.run ops).attributes.values, record.hint = .classic)
    (hrep : ∀ a ∈ (start.run ops).attributes.keys, a.Representable)
    {d : LegacyDocument} (hd : d.Describes (start.run ops)) :
    ((start.run ops).axes.WellFormed → ∀ members ordered, d.toJson = .object ordered →
      members.Perm ordered → d.WrittenIn (.text (Json.object members).compact)) ∧
    ∀ p, d.WrittenIn p → (start.run ops).axes.WellFormed ∧
      Document.decode p = .ok (.legacy d) ∧
      ∃ s, decode p = .ok s ∧ s.same (start.run ops) = true ∧
        ∀ a, s.history a = (start.run ops).history a := by
  have hgapless : (start.run ops).Gapless := by
    obtain ⟨-, -, rfl⟩ := new_eq_ok.1 hstart
    exact (Gapless.empty _).run ops
  have hcounted := (Counted.new hstart).run ops
  have hsame := hd.same_ofLegacy hgapless hrep hhints
  have hkeys := hd.malformedKey?_eq_none hrep
  have hwrong : d.wrong? = none := by
    have hupgraded := wrong?_toDocument ((Agreeing.of_gapless hgapless).of_same hsame)
      (hcounted.of_same hsame)
    rwa [toDocument_ofLegacy hkeys, LegacyDocument.wrong?_upgraded] at hupgraded
  have hmax : d.maximum ≤ slotMaximum := hd.maximum ▸ hcounted.maximum_le
  refine ⟨fun hwell members ordered hjson hperm => ?_, fun p hp => ?_⟩
  · exact LegacyDocument.writtenIn_compact hwrong hmax (hd.wellFormed_axes_iff.2 hwell) hjson hperm
  · have hdocument := LegacyDocument.decode_of_writtenIn hp
      (LegacyDocument.ofJson_toJson hkeys hwrong hmax)
    have hwell : d.axes.WellFormed := Document.wellFormed_axes_of_decode hdocument
    refine ⟨hd.wellFormed_axes_iff.1 hwell, hdocument, ofLegacy d, decode_of_document hdocument,
      hsame, fun a => ?_⟩
    rw [history, history, (same_iff.1 hsame).2.2.2 a]

/-- Fields, axes, attributes and slots all in another order than the registry has them. -/
theorem decode_describes_shuffled :
    let ops : List Operation := [
      .addAxis ⟨"B".toText, [(":y".toText, .classic), ("x".toText, .classic)], true⟩,
      .rotate ⟨"B".toText, "x".toText⟩, .addAxis ⟨"A".toText, [], false⟩,
      .rotate ⟨"B".toText, "x".toText⟩]
    let r := (empty 9).run ops
    let axes := [("A".toText, Json.array [.array [], .bool false]),
      ("B".toText, .array [.array [.string ":y".toText, .string "x".toText], .bool true])]
    let slots := [("B::x".toText, Json.array [.ofNat 4, .ofNat 2, .ofNat 3]),
      ("B:::y".toText, .array [.ofNat 1])]
    let fields := [("last_attribute_value".toText, Json.ofNat 4),
      ("max_attribute_value".toText, .ofNat 9), ("axes".toText, .object axes),
      ("attribute_to_int".toText, .object slots)]
    r.history ⟨"B".toText, "x".toText⟩ = [2, 3, 4] ∧
      ∃ s, decode (.text (Json.object fields.reverse).compact) = .ok s ∧ s.same r = true := by
  intro ops r axes slots fields
  let d : LegacyDocument := ⟨4, 9,
    .ofList [("A".toText, ⟨[], false⟩), ("B".toText, ⟨[":y".toText, "x".toText], true⟩)],
    .ofList [("B::x".toText, [4, 2, 3]), ("B:::y".toText, [1])]⟩
  have hd : d.Describes r := ⟨rfl, rfl, by decide, by decide, by decide⟩
  obtain ⟨hwrite, hread⟩ := decode_describes (show Registry.new 9 = .ok (empty 9) from rfl) ops
    (by decide) (by decide) hd
  have hp : d.WrittenIn (.text (Json.object fields.reverse).compact) :=
    hwrite (by decide) _ _ rfl (List.reverse_perm fields)
  obtain ⟨-, -, s, hs, hsame, -⟩ := hread _ hp
  exact ⟨by decide, s, hs, hsame⟩

/-- The attribute is classic and representable, and its name is one surrogate. No payload holds the
document that describes the registry; a text with the name escaped is no JSON to the reader. -/
theorem not_writtenIn_surrogate :
    let a : Attribute := ⟨"A".toText, [.surrogate 0]⟩
    let r := (empty 1).run [.addAxis ⟨a.axis, [(a.name, .classic)], false⟩]
    let d : LegacyDocument := ⟨1, 1, .ofList [(a.axis, ⟨[a.name], false⟩)], .ofList [(a.text, [1])]⟩
    let escaped : Text := ("\x7b\"last_attribute_value\":1,\"max_attribute_value\":1," ++
      "\"axes\":\x7b\"A\":[[\"\\ud800\"],false]\x7d," ++
      "\"attribute_to_int\":\x7b\"A::\\ud800\":[1]\x7d\x7d").toText
    r.history a = [1] ∧ (∀ b ∈ r.attributes.keys, b.Representable) ∧
      (∀ record ∈ r.attributes.values, record.hint = .classic) ∧ d.Describes r ∧
      (∀ p, ¬ d.WrittenIn p) ∧
      Document.decode (.text escaped) = .error (.deserialization [⟨.notJson, []⟩]) := by
  intro a r d escaped
  refine ⟨by decide, by decide, by decide, ⟨rfl, rfl, by decide, by decide, by decide⟩, ?_, ?_⟩
  · intro p hp
    have hdocument : Document.decode p = .ok (.legacy d) :=
      LegacyDocument.decode_of_writtenIn hp (LegacyDocument.ofJson_toJson rfl rfl (by decide))
    exact absurd (Document.wellFormed_axes_of_decode hdocument) (by decide)
  · have hread : (Payload.text escaped).readStrict? = none := by decide +kernel
    have hwell : escaped.WellFormed := Text.wellFormed_toText _
    simp only [Document.decode, Document.readPayload, hread, Document.unreadable, if_pos hwell]

end Registry

end AttributeAccess
