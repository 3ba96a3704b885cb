import AttributeAccess.Document.Basic
import AttributeAccess.Proofs.Document.Reading

/-!
# The shapes of documents

What a JSON value has to look like to be a document of either layout, and which document it then is:
`CurrentDocument.Fits` and `LegacyDocument.Fits`. They speak of fields and of the range of numbers,
not yet of keys or of what the parts have to do with each other. The order of fields is free, and of
a field that stands twice the last counts. A value is at most one document (`Fits.unique`), and
reading its fields gives that one, provided that its keys are attributes (`shape_eq_ok`).
-/

namespace AttributeAccess

namespace Json

/-- An object with these fields and no others: of each name the last member, in any order. -/
def HasFields (v : Json) (fields : List (Text × Json)) : Prop :=
  ∃ ms, v = .object ms ∧ (OrderedMap.ofList ms).entries.Perm fields

/-- An object whose members are the entries of a map: each of them fits, and a name keeps its first
place and its last value. -/
def HasEntries {α : Type} (fits : Json → α → Prop) (v : Json) (m : OrderedMap Text α) : Prop :=
  ∃ ms es, v = .object ms ∧ List.Forall₂ (fun e e' => e'.1 = e.1 ∧ fits e.2 e'.2) ms es ∧
    m = OrderedMap.ofList es

variable {v : Json} {fields : List (Text × Json)}

/-- Looking the fields up one by one, and finding no other name. -/
theorem hasFields_iff (hd : (fields.map Prod.fst).Nodup) :
    v.HasFields fields ↔ ∃ ms, v = .object ms ∧
      (fields.Forall fun e => (OrderedMap.ofList ms).get? e.1 = some e.2) ∧
      ∀ name ∈ (OrderedMap.ofList ms).keys, name ∈ fields.map Prod.fst := by
  simp only [HasFields, OrderedMap.entries_perm_iff hd, List.forall_iff_forall_mem]

/-- The names of the fields tell the fields. -/
theorem HasFields.unique {others : List (Text × Json)} (h : v.HasFields fields)
    (h' : v.HasFields others) (hnames : fields.map Prod.fst = others.map Prod.fst) :
    fields = others := by
  obtain ⟨ms, rfl, hperm⟩ := h
  obtain ⟨_, heq, hperm'⟩ := h'
  cases heq
  -- looked up in the object by its names, a list of all its fields is found again
  have hnamed : ∀ es, (OrderedMap.ofList ms).entries.Perm es →
      ((es.map Prod.fst).filterMap fun name =>
        ((OrderedMap.ofList ms).get? name).map fun w => (name, w)) = es := by
    intro es hes
    rw [List.filterMap_map]
    refine (List.filterMap_congr fun e he => ?_).trans List.filterMap_some
    rw [Function.comp_apply, OrderedMap.get?_eq_some_iff.2 (hes.mem_iff.2 he), Option.map_some]
  rw [← hnamed fields hperm, hnames, hnamed others hperm']

/-- The order of the members is free. -/
theorem HasFields.of_perm {ms ns : List (Text × Json)} (hd : (ns.map Prod.fst).Nodup)
    (hperm : ms.Perm ns) (h : (object ns).HasFields fields) : (object ms).HasFields fields := by
  obtain ⟨_, heq, hfields⟩ := h
  cases heq
  have hd' : (ms.map Prod.fst).Nodup := (hperm.map Prod.fst).nodup_iff.2 hd
  refine ⟨ms, rfl, .trans ?_ hfields⟩
  rwa [OrderedMap.entries_ofList hd', OrderedMap.entries_ofList hd]

theorem hasFields_object (hd : (fields.map Prod.fst).Nodup) :
    (Json.object fields).HasFields fields :=
  ⟨fields, rfl, .of_eq (OrderedMap.entries_ofList hd)⟩

/-- What was written entry by entry has these entries. -/
theorem hasEntries_mapValues {α : Type} {fits : Json → α → Prop} {write : α → Json}
    {m : OrderedMap Text α} (h : ∀ a ∈ m.values, fits (write a) a) :
    HasEntries fits (.object (m.mapValues write).entries) m := by
  refine ⟨_, m.entries, rfl, ?_, (OrderedMap.ofList_entries m).symm⟩
  rw [OrderedMap.entries_mapValues, List.forall₂_map_left_iff, List.forall₂_same]
  exact fun e he => ⟨rfl, h e.2 (List.mem_map_of_mem he)⟩

@[simp] theorem ofNat_inj {m n : Nat} : ofNat m = ofNat n ↔ m = n := by
  simp only [ofNat, number.injEq, Number.integer.injEq, Int.ofNat_inj]

end Json

namespace Reading

variable {α : Type} {read : Json → Reading α} {fits : Json → α → Prop}

theorem entriesOf_eq_ok_iff (h : ∀ v a, read v = .ok a ↔ fits v a) {v : Json}
    {m : OrderedMap Text α} : entriesOf read v = .ok m ↔ Json.HasEntries fits v m := by
  simp only [entriesOf_eq_ok, h, Json.HasEntries]

/-- What fits is what is read, and that is one thing. -/
theorem hasEntries_unique (h : ∀ v a, read v = .ok a ↔ fits v a) {v : Json}
    {m n : OrderedMap Text α} (hm : Json.HasEntries fits v m) (hn : Json.HasEntries fits v n) :
    m = n :=
  Except.ok.inj (((entriesOf_eq_ok_iff h).2 hm).symm.trans ((entriesOf_eq_ok_iff h).2 hn))

end Reading

/-! ## The current layout -/

namespace CurrentDocument

def FitsAxis (v : Json) (r : AxisRecord) : Prop :=
  v.HasFields [("attribute_names".toText, .array (r.names.map .string)),
    ("is_hierarchical".toText, .bool r.hierarchical)]

def FitsEntry (v : Json) (r : AttributeRecord) : Prop :=
  v.HasFields [("values".toText, .array (r.slots.map .ofNat)),
    ("encryption_hint".toText, .string r.hint.name)] ∧ ∀ slot ∈ r.slots, slot ≤ slotMaximum

/-- The value has the fields of the layout, and this is what they say. -/
structure Fits (v : Json) (d : CurrentDocument) : Prop where
  last_le : d.last ≤ slotMaximum
  maximum_le : d.maximum ≤ slotMaximum
  fields : ∃ axes attributes, Json.HasEntries FitsAxis axes d.axes ∧
    Json.HasEntries FitsEntry attributes d.attributes ∧
    v.HasFields [("version".toText, .string versionName),
      ("last_attribute_value".toText, .ofNat d.last),
      ("max_attribute_creations".toText, .ofNat d.maximum),
      ("axes".toText, axes), ("attributes".toText, attributes)]

theorem version_eq_ok {v : Json} {u : Unit} : version v = .ok u ↔ v = .string versionName := by
  cases v with
  | string t =>
    rw [Json.string.injEq, version]
    split <;> simp_all
  | _ => simp [version]

theorem axis_eq_ok {v : Json} {r : AxisRecord} : axis v = .ok r ↔ FitsAxis v r := by
  rw [FitsAxis, Json.hasFields_iff (by simp), axis, Reading.record_eq_ok]
  simp only [Reading.map_eq_ok, Reading.both_eq_ok, Reading.required_eq_ok, Reading.texts_eq_ok,
    Reading.boolean_eq_ok, exists_eq_right]
  constructor
  · rintro ⟨ms, hv, ⟨⟨names, hierarchical⟩, hfields, rfl⟩, honly⟩
    exact ⟨ms, hv, hfields, honly⟩
  · rintro ⟨ms, hv, hfields, honly⟩
    exact ⟨ms, hv, ⟨(r.names, r.hierarchical), hfields, rfl⟩, honly⟩

theorem entry_eq_ok {v : Json} {r : AttributeRecord} : entry v = .ok r ↔ FitsEntry v r := by
  rw [FitsEntry, Json.hasFields_iff (by simp), entry, Reading.record_eq_ok]
  simp only [Reading.map_eq_ok, Reading.both_eq_ok, Reading.required_eq_ok, Reading.slots_eq_ok,
    Reading.hint_eq_ok, exists_eq_right]
  constructor
  · rintro ⟨ms, hv, ⟨⟨slots, hint⟩, ⟨⟨_, hvalues, rfl, hslots⟩, hhint⟩, rfl⟩, honly⟩
    exact ⟨⟨ms, hv, ⟨hvalues, hhint⟩, honly⟩, hslots⟩
  · rintro ⟨⟨ms, hv, ⟨hvalues, hhint⟩, honly⟩, hslots⟩
    exact ⟨ms, hv, ⟨(r.slots, r.hint), ⟨⟨_, hvalues, rfl, hslots⟩, hhint⟩, rfl⟩, honly⟩

theorem checkKeys_eq_ok {m m' : OrderedMap Text AttributeRecord} :
    checkKeys m = .ok m' ↔ Consistency.malformedKey? m.keys = none ∧ m = m' :=
  Consistency.approve_eq_ok

/-- The shape of a value is read if it fits a document whose keys are attributes. -/
theorem shape_eq_ok {v : Json} {d : CurrentDocument} :
    shape v = .ok d ↔ Fits v d ∧ Consistency.malformedKey? d.attributes.keys = none := by
  rw [shape, Reading.record_eq_ok]
  simp only [Reading.map_eq_ok, Reading.both_eq_ok, Reading.required_eq_ok, Reading.bind_eq_ok,
    version_eq_ok, Reading.slot_eq_ok, Reading.entriesOf_eq_ok_iff fun _ _ => axis_eq_ok,
    Reading.entriesOf_eq_ok_iff fun _ _ => entry_eq_ok, checkKeys_eq_ok, exists_eq_right]
  constructor
  · rintro ⟨ms, hv, ⟨⟨_, last, maximum, axes, attributes⟩, hread, rfl⟩, honly⟩
    obtain ⟨hversion, ⟨_, hlast, rfl, hlast_le⟩, ⟨_, hmax, rfl, hmax_le⟩, hread⟩ := hread
    obtain ⟨⟨u, hu, haxes⟩, w, hw, _, hattributes, hkeys, rfl⟩ := hread
    refine ⟨⟨hlast_le, hmax_le, u, w, haxes, hattributes, ?_⟩, hkeys⟩
    exact (Json.hasFields_iff (by simp)).2 ⟨ms, hv, ⟨hversion, hlast, hmax, hu, hw⟩, honly⟩
  · rintro ⟨⟨hlast_le, hmax_le, u, w, haxes, hattributes, hfields⟩, hkeys⟩
    obtain ⟨ms, hv, ⟨hversion, hlast, hmax, hu, hw⟩, honly⟩ :=
      (Json.hasFields_iff (by simp)).1 hfields
    refine ⟨ms, hv, ⟨((), d.last, d.maximum, d.axes, d.attributes), ?_, rfl⟩, honly⟩
    exact ⟨hversion, ⟨_, hlast, rfl, hlast_le⟩, ⟨_, hmax, rfl, hmax_le⟩, ⟨u, hu, haxes⟩,
      w, hw, _, hattributes, hkeys, rfl⟩

/-- The numbers of the document are slots. -/
structure Ranged (d : CurrentDocument) : Prop where
  last_le : d.last ≤ slotMaximum
  maximum_le : d.maximum ≤ slotMaximum
  slots_le : ∀ record ∈ d.attributes.values, ∀ slot ∈ record.slots, slot ≤ slotMaximum

theorem fits_toJson {d : CurrentDocument} (h : d.Ranged) : Fits d.toJson d := by
  refine ⟨h.last_le, h.maximum_le, _, _, ?_, ?_, Json.hasFields_object (by simp)⟩
  · exact Json.hasEntries_mapValues fun r _ => Json.hasFields_object (by simp)
  · exact Json.hasEntries_mapValues fun r hr =>
      ⟨Json.hasFields_object (by simp), h.slots_le r hr⟩

/-- A value is one document at most. -/
theorem Fits.unique {v : Json} {d d' : CurrentDocument} (h : Fits v d) (h' : Fits v d') :
    d = d' := by
  obtain ⟨-, -, u, w, haxes, hattributes, hfields⟩ := h
  obtain ⟨-, -, u', w', haxes', hattributes', hfields'⟩ := h'
  have hsame := hfields.unique hfields' rfl
  simp only [List.cons.injEq, Prod.mk.injEq, true_and, and_true, Json.ofNat_inj] at hsame
  obtain ⟨hlast, hmax, rfl, rfl⟩ := hsame
  have hsameAxes := Reading.hasEntries_unique (fun _ _ => axis_eq_ok) haxes haxes'
  have hsameEntries := Reading.hasEntries_unique (fun _ _ => entry_eq_ok) hattributes hattributes'
  cases d
  cases d'
  simp only [mk.injEq]
  exact ⟨hlast, hmax, hsameAxes, hsameEntries⟩

end CurrentDocument

/-! ## The legacy layout -/

namespace LegacyDocument

def FitsAxis (v : Json) (r : AxisRecord) : Prop :=
  v = .array [.array (r.names.map .string), .bool r.hierarchical]

def FitsEntry (v : Json) (slots : List Nat) : Prop :=
  v = .array (slots.map .ofNat) ∧ ∀ slot ∈ slots, slot ≤ slotMaximum

/-- The value has the fields of the layout, and this is what they say. -/
structure Fits (v : Json) (d : LegacyDocument) : Prop where
  last_le : d.last ≤ slotMaximum
  maximum_le : d.maximum ≤ slotMaximum
  fields : ∃ axes slots, Json.HasEntries FitsAxis axes d.axes ∧
    Json.HasEntries FitsEntry slots d.slots ∧
    v.HasFields [("last_attribute_value".toText, .ofNat d.last),
      ("max_attribute_value".toText, .ofNat d.maximum), ("axes".toText, axes),
      ("attribute_to_int".toText, slots)]

theorem axis_eq_ok {v : Json} {r : AxisRecord} : axis v = .ok r ↔ FitsAxis v r := by
  unfold FitsAxis axis
  split
  · next names hierarchical =>
    simp only [Reading.map_eq_ok, Reading.both_eq_ok, Reading.under_eq_ok, Reading.texts_eq_ok,
      Reading.boolean_eq_ok, Json.array.injEq, List.cons.injEq, and_true]
    constructor
    · rintro ⟨⟨_, _⟩, hread, rfl⟩
      exact hread
    · intro hread
      exact ⟨(r.names, r.hierarchical), hread, rfl⟩
  · next hpair =>
    simp only [Reading.refuse_eq_ok, false_iff]
    exact hpair _ _

theorem entry_eq_ok {v : Json} {slots : List Nat} :
    Reading.listOf Reading.slot v = .ok slots ↔ FitsEntry v slots :=
  Reading.slots_eq_ok

theorem checkKeys_eq_ok {m m' : OrderedMap Text (List Nat)} :
    checkKeys m = .ok m' ↔ Consistency.malformedKey? m.keys = none ∧ m = m' :=
  Consistency.approve_eq_ok

/-- The shape of a value is read if it fits a document whose keys are attributes. -/
theorem shape_eq_ok {v : Json} {d : LegacyDocument} :
    shape v = .ok d ↔ Fits v d ∧ Consistency.malformedKey? d.slots.keys = none := by
  rw [shape, Reading.record_eq_ok]
  simp only [Reading.map_eq_ok, Reading.both_eq_ok, Reading.required_eq_ok, Reading.bind_eq_ok,
    Reading.slot_eq_ok, Reading.entriesOf_eq_ok_iff fun _ _ => axis_eq_ok,
    Reading.entriesOf_eq_ok_iff fun _ _ => entry_eq_ok, checkKeys_eq_ok]
  constructor
  · rintro ⟨ms, hv, ⟨⟨last, maximum, axes, slots⟩, hread, rfl⟩, honly⟩
    obtain ⟨⟨_, hlast, rfl, hlast_le⟩, ⟨_, hmax, rfl, hmax_le⟩, hread⟩ := hread
    obtain ⟨⟨u, hu, haxes⟩, w, hw, _, hslots, hkeys, rfl⟩ := hread
    refine ⟨⟨hlast_le, hmax_le, u, w, haxes, hslots, ?_⟩, hkeys⟩
    exact (Json.hasFields_iff (by simp)).2 ⟨ms, hv, ⟨hlast, hmax, hu, hw⟩, honly⟩
  · rintro ⟨⟨hlast_le, hmax_le, u, w, haxes, hslots, hfields⟩, hkeys⟩
    obtain ⟨ms, hv, ⟨hlast, hmax, hu, hw⟩, honly⟩ := (Json.hasFields_iff (by simp)).1 hfields
    refine ⟨ms, hv, ⟨(d.last, d.maximum, d.axes, d.slots), ?_, rfl⟩, honly⟩
    exact ⟨⟨_, hlast, rfl, hlast_le⟩, ⟨_, hmax, rfl, hmax_le⟩, ⟨u, hu, haxes⟩,
      w, hw, _, hslots, hkeys, rfl⟩

/-- The numbers of the document are slots. -/
structure Ranged (d : LegacyDocument) : Prop where
  last_le : d.last ≤ slotMaximum
  maximum_le : d.maximum ≤ slotMaximum
  slots_le : ∀ slots ∈ d.slots.values, ∀ slot ∈ slots, slot ≤ slotMaximum

theorem fits_toJson {d : LegacyDocument} (h : d.Ranged) : Fits d.toJson d := by
  refine ⟨h.last_le, h.maximum_le, _, _, ?_, ?_, Json.hasFields_object (by simp)⟩
  · exact Json.hasEntries_mapValues fun r _ => rfl
  · exact Json.hasEntries_mapValues fun slots hslots => ⟨rfl, h.slots_le slots hslots⟩

/-- A value is one document at most. -/
theorem Fits.unique {v : Json} {d d' : LegacyDocument} (h : Fits v d) (h' : Fits v d') :
    d = d' := by
  obtain ⟨-, -, u, w, haxes, hslots, hfields⟩ := h
  obtain ⟨-, -, u', w', haxes', hslots', hfields'⟩ := h'
  have hsame := hfields.unique hfields' rfl
  simp only [List.cons.injEq, Prod.mk.injEq, true_and, and_true, Json.ofNat_inj] at hsame
  obtain ⟨hlast, hmax, rfl, rfl⟩ := hsame
  have hsameAxes := Reading.hasEntries_unique (fun _ _ => axis_eq_ok) haxes haxes'
  have hsameSlots := Reading.hasEntries_unique (fun _ _ => entry_eq_ok) hslots hslots'
  cases d
  cases d'
  simp only [mk.injEq]
  exact ⟨hlast, hmax, hsameAxes, hsameSlots⟩

/-- The current layout requires a version, which the old one does not know. -/
theorem Fits.not_current {v : Json} {d : LegacyDocument} (h : Fits v d) (c : CurrentDocument) :
    ¬ CurrentDocument.Fits v c := by
  rintro ⟨-, -, _, _, -, -, ms, rfl, hperm⟩
  obtain ⟨-, -, _, _, -, -, _, heq, hperm'⟩ := h
  cases heq
  -- the fields of both would be those of one object
  have hversion := (hperm.symm.trans hperm').subset List.mem_cons_self
  simp at hversion

end LegacyDocument

end AttributeAccess
