import AttributeAccess.Document.AxisForm
import AttributeAccess.Proofs.Document.WellFormed

/-!
# Documents read back

`CurrentDocument.ofJson_eq_ok` and its legacy companion say what reading a document establishes:
the shape of the layout and nothing wrong. Since no value has both shapes, the two attempts do not
get in each other's way (`Document.ofJson_eq_ok`). A document that is `checked` and allows no more
slots than there are is read back from its own text (`Document.decode_toJson`, for the old layout
`Document.decode_toJson_legacy`), and so is an axis without an empty name (`Axis.decode_toJson`).
-/

namespace AttributeAccess

namespace Reading

variable {α : Type}

/-- An object that lists each declared field once is read by reading these fields. -/
theorem record_object {declared : List Text} {read : Fields → Reading α}
    {ms : List (Text × Json)} {a : α} (hd : (ms.map Prod.fst).Nodup)
    (hkeys : ms.map Prod.fst = declared) (hread : read ⟨ms, hd⟩ = .ok a) :
    record declared read (.object ms) = .ok a := by
  have hmap : OrderedMap.ofList ms = ⟨ms, hd⟩ := OrderedMap.ext (OrderedMap.entries_ofList hd)
  rw [record_eq_ok]
  refine ⟨ms, rfl, hmap ▸ hread, ?_⟩
  rw [hmap, ← hkeys]
  exact fun name h => h

theorem required_entry {fields : Fields} {name : Text} {v : Json} {read : Json → Reading α} {a : α}
    (h : fields.get? name = some v) (hread : read v = .ok a) :
    required fields name read = .ok a :=
  required_eq_ok.2 ⟨v, h, hread⟩

theorem optional_entry {fields : Fields} {name : Text} {default : α} {v : Json}
    {read : Json → Reading α} {a : α} (h : fields.get? name = some v) (hread : read v = .ok a) :
    optional fields name default read = .ok a := by
  rw [optional, h]
  exact under_eq_ok.2 hread

end Reading

/-! ## The current layout -/

namespace CurrentDocument

theorem checked_eq_ok {d d' : CurrentDocument} :
    d.checked = .ok d' ↔
      Consistency.malformedKey? d.attributes.keys = none ∧ d.wrong? = none ∧ d = d' := by
  show (((checkKeys d.attributes).under _).bind fun _ => Consistency.approve d.wrong? d) = _ ↔ _
  rw [Reading.bind_eq_ok]
  simp only [Reading.under_eq_ok, checkKeys_eq_ok, Consistency.approve_eq_ok]
  constructor
  · rintro ⟨m, ⟨hkeys, -⟩, hwrong, rfl⟩
    exact ⟨hkeys, hwrong, rfl⟩
  · rintro ⟨hkeys, hwrong, rfl⟩
    exact ⟨d.attributes, ⟨hkeys, rfl⟩, hwrong, rfl⟩

theorem wrong?_eq_none {d : CurrentDocument} :
    d.wrong? = none ↔
      (d.last ≤ d.maximum ∧ (d.attributes.values.flatMap (·.slots)).Nodup ∧
        ∀ slot ∈ d.attributes.values.flatMap (·.slots), slot ≤ d.last) ∧
      Consistency.badAxes? d.axes d.attributes.keys = none := by
  unfold wrong?
  rw [Option.or_eq_none_iff, Consistency.badCounters?_eq_none]

theorem ofJson_eq_ok {v : Json} {d : CurrentDocument} :
    ofJson v = .ok d ↔
      Fits v d ∧ Consistency.malformedKey? d.attributes.keys = none ∧ d.wrong? = none := by
  rw [← and_assoc, ← shape_eq_ok]
  exact Consistency.bind_approve_eq_ok

/-- No number of a checked document exceeds its maximum. -/
theorem ranged_of_checked {d : CurrentDocument} (h : d.checked = .ok d)
    (hmax : d.maximum ≤ slotMaximum) : d.Ranged := by
  obtain ⟨-, hwrong, -⟩ := checked_eq_ok.1 h
  obtain ⟨⟨hlast, -, hall⟩, -⟩ := wrong?_eq_none.1 hwrong
  refine ⟨hlast.trans hmax, hmax, fun record hr slot hs => ?_⟩
  exact (hall slot (List.mem_flatMap.2 ⟨record, hr, hs⟩)).trans (hlast.trans hmax)

theorem ofJson_toJson {d : CurrentDocument} (h : d.checked = .ok d)
    (hmax : d.maximum ≤ slotMaximum) : ofJson d.toJson = .ok d := by
  obtain ⟨hkeys, hwrong, -⟩ := checked_eq_ok.1 h
  exact ofJson_eq_ok.2 ⟨fits_toJson (ranged_of_checked h hmax), hkeys, hwrong⟩

/-! ### Its text -/

theorem wellFormed_keys {d : CurrentDocument} (h : d.checked = .ok d) (haxes : d.axes.WellFormed) :
    ∀ key ∈ d.attributes.keys, key.WellFormed :=
  Consistency.wellFormed_keys (wrong?_eq_none.1 (checked_eq_ok.1 h).2.1).2 haxes

theorem readable_slot {depth slot : Nat} (h : slot ≤ slotMaximum) :
    Json.Readable depth (.ofNat slot) := by
  refine .number ((Digits.length_ofNat_le (k := 9) ?_).trans (by decide))
  exact lt_of_le_of_lt h (by decide)

theorem readable_list {α : Type} {depth : Nat} {as : List α} {write : α → Json}
    (h : ∀ a ∈ as, Json.Readable depth (write a)) :
    Json.Readable (depth + 1) (.array (as.map write)) :=
  .array (List.forall_mem_map.2 h)

theorem readable_names {depth : Nat} (names : List Text) :
    Json.Readable (depth + 1) (.array (names.map .string)) :=
  readable_list fun name _ => .string name

theorem readable_slots {depth : Nat} {slots : List Nat} (h : ∀ slot ∈ slots, slot ≤ slotMaximum) :
    Json.Readable (depth + 1) (.array (slots.map .ofNat)) :=
  readable_list fun slot hs => readable_slot (h slot hs)

theorem readable_axisToJson (r : AxisRecord) : Json.Readable 2 (axisToJson r) := by
  refine .object ?_
  simp only [List.forall_mem_cons, List.not_mem_nil, false_imp_iff, implies_true, and_true]
  exact ⟨readable_names r.names, .bool _⟩

theorem readable_attributeToJson {r : AttributeRecord} (h : ∀ slot ∈ r.slots, slot ≤ slotMaximum) :
    Json.Readable 2 (attributeToJson r) := by
  refine .object ?_
  simp only [List.forall_mem_cons, List.not_mem_nil, false_imp_iff, implies_true, and_true]
  exact ⟨readable_slots h, .string _⟩

theorem readable_entries {α : Type} {depth : Nat} {m : OrderedMap Text α} {write : α → Json}
    (h : ∀ a ∈ m.values, Json.Readable depth (write a)) :
    Json.Readable (depth + 1) (.object (m.mapValues write).entries) := by
  refine .object ?_
  rw [OrderedMap.entries_mapValues]
  simp only [List.forall_mem_map]
  exact fun e he => h e.2 (List.mem_map_of_mem he)

theorem readable_toJson {d : CurrentDocument} (h : d.Ranged) : Json.Readable 4 d.toJson := by
  refine .object ?_
  simp only [List.forall_mem_cons, List.not_mem_nil, false_imp_iff, implies_true, and_true]
  refine ⟨.string _, readable_slot h.last_le, readable_slot h.maximum_le, ?_, ?_⟩
  · exact readable_entries fun r _ => readable_axisToJson r
  · exact readable_entries fun r hr => readable_attributeToJson (h.slots_le r hr)

end CurrentDocument

/-! ## The legacy layout -/

namespace LegacyDocument

theorem wrong?_eq_none {d : LegacyDocument} :
    d.wrong? = none ↔
      (d.last ≤ d.maximum ∧ d.slots.values.flatten.Nodup ∧
        ∀ slot ∈ d.slots.values.flatten, slot ≤ d.last) ∧
      Consistency.badAxes? d.axes d.slots.keys = none := by
  unfold wrong?
  rw [Option.or_eq_none_iff, Consistency.badCounters?_eq_none]

theorem ofJson_eq_ok {v : Json} {d : LegacyDocument} :
    ofJson v = .ok d ↔
      Fits v d ∧ Consistency.malformedKey? d.slots.keys = none ∧ d.wrong? = none := by
  rw [← and_assoc, ← shape_eq_ok]
  exact Consistency.bind_approve_eq_ok

theorem ranged_of_wrong? {d : LegacyDocument} (hwrong : d.wrong? = none)
    (hmax : d.maximum ≤ slotMaximum) : d.Ranged := by
  obtain ⟨⟨hlast, -, hall⟩, -⟩ := wrong?_eq_none.1 hwrong
  refine ⟨hlast.trans hmax, hmax, fun slots hslots slot hs => ?_⟩
  exact (hall slot (List.mem_flatten.2 ⟨slots, hslots, hs⟩)).trans (hlast.trans hmax)

theorem ofJson_toJson {d : LegacyDocument} (hkeys : Consistency.malformedKey? d.slots.keys = none)
    (hwrong : d.wrong? = none) (hmax : d.maximum ≤ slotMaximum) : ofJson d.toJson = .ok d :=
  ofJson_eq_ok.2 ⟨fits_toJson (ranged_of_wrong? hwrong hmax), hkeys, hwrong⟩

theorem wellFormed_keys {d : LegacyDocument} (hwrong : d.wrong? = none)
    (haxes : d.axes.WellFormed) : ∀ key ∈ d.slots.keys, key.WellFormed :=
  Consistency.wellFormed_keys (wrong?_eq_none.1 hwrong).2 haxes

theorem readable_toJson {d : LegacyDocument} (h : d.Ranged) : Json.Readable 4 d.toJson := by
  refine .object ?_
  simp only [List.forall_mem_cons, List.not_mem_nil, false_imp_iff, implies_true, and_true]
  refine ⟨CurrentDocument.readable_slot h.last_le, CurrentDocument.readable_slot h.maximum_le,
    ?_, ?_⟩
  · refine CurrentDocument.readable_entries fun r _ => .array ?_
    simp only [List.forall_mem_cons, List.not_mem_nil, false_imp_iff, implies_true, and_true]
    exact ⟨CurrentDocument.readable_names r.names, .bool _⟩
  · exact CurrentDocument.readable_entries fun slots hslots =>
      CurrentDocument.readable_slots (h.slots_le slots hslots)

end LegacyDocument

/-! ## Either layout -/

namespace Document

/-- No value is a document of both layouts, so the first attempt takes nothing from the second. -/
theorem ofJson_eq_ok {v : Json} {d : Document} :
    ofJson v = .ok d ↔ (∃ c, d = current c ∧ CurrentDocument.ofJson v = .ok c) ∨
      ∃ l, d = legacy l ∧ LegacyDocument.ofJson v = .ok l := by
  unfold ofJson
  cases hc : CurrentDocument.ofJson v with
  | ok c =>
    have hlegacy : ∀ l, LegacyDocument.ofJson v ≠ .ok l := fun l hl =>
      (LegacyDocument.ofJson_eq_ok.1 hl).1.not_current c (CurrentDocument.ofJson_eq_ok.1 hc).1
    simp [hlegacy, eq_comm]
  | error issues => cases LegacyDocument.ofJson v <;> simp [eq_comm]

theorem readPayload_eq_ok {α : Type} {read : Json → Reading α} {p : Payload} {a : α} :
    readPayload read p = .ok a ↔ ∃ v, p.readStrict? = some v ∧ read v = .ok a := by
  unfold readPayload
  cases p.readStrict? with
  | none => simp
  | some v => cases h : read v <;> simp [Except.mapError, h]

/-- A value that reading takes is read from its compact text. -/
theorem readPayload_compact {α : Type} {read : Json → Reading α} {v : Json} {a : α} {depth : Nat}
    (hv : Json.Readable depth v) (hwell : v.WellFormed) (hdepth : depth ≤ Payload.strictDepth)
    (h : read v = .ok a) : readPayload read (.text v.compact) = .ok a :=
  readPayload_eq_ok.2 ⟨v, Payload.readStrict?_compact hv hwell hdepth, h⟩

/-- A checked document with well-formed names is read back from its text. -/
theorem decode_toJson {d : CurrentDocument} (h : d.checked = .ok d) (haxes : d.axes.WellFormed)
    (hmax : d.maximum ≤ slotMaximum) : decode (.text d.toJson.compact) = .ok (.current d) :=
  readPayload_compact (CurrentDocument.readable_toJson (CurrentDocument.ranged_of_checked h hmax))
    (CurrentDocument.wellFormed_toJson haxes (CurrentDocument.wellFormed_keys h haxes))
    (by decide) (ofJson_eq_ok.2 (.inl ⟨d, rfl, CurrentDocument.ofJson_toJson h hmax⟩))

/-- A document of the old layout with well-formed names, in which nothing is wrong, is read back
from its text. -/
theorem decode_toJson_legacy {d : LegacyDocument}
    (hkeys : Consistency.malformedKey? d.slots.keys = none) (hwrong : d.wrong? = none)
    (haxes : d.axes.WellFormed) (hmax : d.maximum ≤ slotMaximum) :
    decode (.text d.toJson.compact) = .ok (.legacy d) :=
  readPayload_compact (LegacyDocument.readable_toJson (LegacyDocument.ranged_of_wrong? hwrong hmax))
    (LegacyDocument.wellFormed_toJson haxes (LegacyDocument.wellFormed_keys hwrong haxes))
    (by decide) (ofJson_eq_ok.2 (.inr ⟨d, rfl, LegacyDocument.ofJson_toJson hkeys hwrong hmax⟩))

end Document

/-! ## Axes -/

namespace Axis

/-- Neither the name of the axis nor one of its attributes is empty, and all are well-formed. -/
def Named (a : Axis) : Prop :=
  (a.name.WellFormed ∧ a.name ≠ []) ∧ ∀ name ∈ a.names, name.WellFormed ∧ name ≠ []

instance (a : Axis) : Decidable a.Named :=
  inferInstanceAs (Decidable (_ ∧ _))

theorem property_propertyToJson {p : Text × Hint} (h : p.1.WellFormed ∧ p.1 ≠ []) :
    property (propertyToJson p) = .ok p := by
  refine Reading.record_object (by simp) rfl ?_
  rw [Reading.both_eq_ok]
  exact ⟨Reading.required_entry rfl (Reading.name_eq_ok.2 ⟨rfl, h⟩),
    Reading.optional_entry rfl (Reading.hint_name p.2)⟩

theorem ofJson_toJson {a : Axis} (h : a.Named) : ofJson a.toJson = .ok a := by
  refine Reading.record_object (by simp) rfl ?_
  rw [Reading.map_eq_ok]
  refine ⟨(a.name, a.properties, a.hierarchical), ?_, rfl⟩
  simp only [Reading.both_eq_ok]
  refine ⟨?_, ?_, Reading.optional_entry rfl rfl⟩
  · exact Reading.required_entry rfl (Reading.name_eq_ok.2 ⟨rfl, h.1⟩)
  · exact Reading.required_entry rfl (Reading.listOf_map fun p hp =>
      property_propertyToJson (h.2 p.1 (List.mem_map_of_mem hp)))

/-- An axis that was read has its names from the reader of names. -/
theorem named_of_ofJson {v : Json} {a : Axis} (h : ofJson v = .ok a) : a.Named := by
  obtain ⟨ms, rfl, hread, -⟩ := Reading.record_eq_ok.1 h
  obtain ⟨⟨name, properties, flag⟩, hparts, rfl⟩ := Reading.map_eq_ok.1 hread
  simp only [Reading.both_eq_ok, Reading.required_eq_ok, Reading.name_eq_ok,
    Reading.listOf_eq_ok] at hparts
  obtain ⟨⟨_, -, -, hname⟩, ⟨_, -, vs, -, hitems⟩, -⟩ := hparts
  refine ⟨hname, List.forall_mem_map.2 fun p hp => ?_⟩
  obtain ⟨w, -, hproperty⟩ := exists_mem_of_forall₂ hitems hp
  obtain ⟨ns, -, hread, -⟩ := Reading.record_eq_ok.1 hproperty
  obtain ⟨_, -, hp⟩ := Reading.required_eq_ok.1 (Reading.both_eq_ok.1 hread).1
  exact (Reading.name_eq_ok.1 hp).2

theorem named_of_decode {p : Payload} {a : Axis} (h : decode p = .ok a) : a.Named := by
  obtain ⟨v, -, hread⟩ := Document.readPayload_eq_ok.1 h
  exact named_of_ofJson hread

theorem readable_toJson (a : Axis) : Json.Readable 3 a.toJson := by
  refine .object ?_
  simp only [List.forall_mem_cons, List.not_mem_nil, false_imp_iff, implies_true, and_true]
  refine ⟨.string _, CurrentDocument.readable_list fun p _ => .object ?_, .bool _⟩
  simp only [List.forall_mem_cons, List.not_mem_nil, false_imp_iff, implies_true, and_true]
  exact ⟨.string _, .string _⟩

theorem wellFormed_toJson {a : Axis} (h : a.Named) : a.toJson.WellFormed := by
  refine Json.wellFormed_record [("name", _), ("attribute_properties", _),
    ("is_hierarchical", _)] ?_
  simp only [List.forall_mem_cons, List.not_mem_nil, false_imp_iff, implies_true, and_true]
  refine ⟨.string h.1.1, .array (List.forall_mem_map.2 fun p hp => ?_), .bool _⟩
  refine Json.wellFormed_record [("name", _), ("encryption_hint", _)] ?_
  simp only [List.forall_mem_cons, List.not_mem_nil, false_imp_iff, implies_true, and_true]
  exact ⟨.string (h.2 p.1 (List.mem_map_of_mem hp)).1, .string p.2.wellFormed_name⟩

/-- An axis is read back from its text if its names can be read. -/
theorem decode_toJson {a : Axis} (h : a.Named) : decode (.text a.toJson.compact) = .ok a :=
  Document.readPayload_compact (readable_toJson a) (wellFormed_toJson h) (by decide)
    (ofJson_toJson h)

end Axis

end AttributeAccess
