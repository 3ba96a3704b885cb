import AttributeAccess.Proofs.Document.Shape
import AttributeAccess.Proofs.Json.WellFormed

/-!
# Well-formed names in documents

The keys of a document are the texts of the attributes that its axes list, so all its names are
well-formed if those in its axes are (`Consistency.wellFormed_keys`). In a document that was read
they are (`CurrentDocument.Fits.wellFormed`, `LegacyDocument.Fits.wellFormed`), and a document of
which they are is a well-formed value. Of any other one the text is that of the document with
`replaced` names.
-/

namespace AttributeAccess

namespace Axes

/-- Every name that an axis lists is well-formed. -/
def ListsWellFormed (axes : Axes) : Prop :=
  ∀ record ∈ axes.values, ∀ name ∈ record.names, name.WellFormed

/-- The names of the axes and all names that they list are well-formed. -/
structure WellFormed (axes : Axes) : Prop where
  keys : ∀ axis ∈ axes.keys, axis.WellFormed
  lists : axes.ListsWellFormed

theorem wellFormed_iff {axes : Axes} :
    axes.WellFormed ↔ (∀ axis ∈ axes.keys, axis.WellFormed) ∧ axes.ListsWellFormed :=
  ⟨fun h => ⟨h.keys, h.lists⟩, fun h => ⟨h.1, h.2⟩⟩

instance (axes : Axes) : Decidable axes.ListsWellFormed :=
  inferInstanceAs (Decidable (∀ record ∈ axes.values, _))

instance (axes : Axes) : Decidable axes.WellFormed :=
  decidable_of_iff' _ wellFormed_iff

end Axes

theorem Hint.wellFormed_name (h : Hint) : h.name.WellFormed := by
  cases h <;> decide

theorem Attribute.wellFormed_text {a : Attribute} :
    a.text.WellFormed ↔ a.axis.WellFormed ∧ a.name.WellFormed := by
  have hseparator : separator.WellFormed := by decide
  simp only [text, Text.wellFormed_append, hseparator, and_true]

/-- Keys are the texts of what the axes list. -/
theorem Consistency.wellFormed_keys {axes : Axes} {keys : List Text}
    (h : badAxes? axes keys = none) (hwell : axes.WellFormed) : ∀ key ∈ keys, key.WellFormed := by
  intro key hkey
  obtain ⟨axis, record, hget, name, hname, rfl⟩ :=
    mem_listed.1 (((badAxes?_eq_none.1 h).2 key).2 hkey)
  exact Attribute.wellFormed_text.2 ⟨hwell.keys axis (OrderedMap.mem_keys_iff.2 ⟨record, hget⟩),
    hwell.lists record (OrderedMap.mem_values_iff.2 ⟨axis, hget⟩) name hname⟩

/-! ## Values of well-formed texts -/

namespace Json

variable {α : Type} {v : Json}

theorem WellFormed.of_mem_array {items : List Json} (h : (Json.array items).WellFormed)
    (hv : v ∈ items) : v.WellFormed := by
  cases h with
  | array h => exact h v hv

theorem WellFormed.of_mem_object {members : List (Text × Json)}
    (h : (Json.object members).WellFormed) {m : Text × Json} (hm : m ∈ members) :
    m.1.WellFormed ∧ m.2.WellFormed := by
  cases h with
  | object hnames h => exact ⟨hnames m hm, h m hm⟩

theorem WellFormed.of_hasFields {fields : List (Text × Json)} (h : v.WellFormed)
    (hv : v.HasFields fields) {e : Text × Json} (he : e ∈ fields) : e.2.WellFormed := by
  obtain ⟨ms, rfl, hperm⟩ := hv
  exact (h.of_mem_object (OrderedMap.mem_of_mem_ofList (hperm.mem_iff.2 he))).2

/-- Each entry has a well-formed key and comes from a well-formed value. -/
theorem WellFormed.of_hasEntries {fits : Json → α → Prop} {m : OrderedMap Text α}
    (h : v.WellFormed) (hv : v.HasEntries fits m) {e : Text × α} (he : e ∈ m.entries) :
    e.1.WellFormed ∧ ∃ w, w.WellFormed ∧ fits w e.2 := by
  obtain ⟨ms, es, rfl, hfits, rfl⟩ := hv
  obtain ⟨n, hn, hkey, hvalue⟩ := exists_mem_of_forall₂ hfits (OrderedMap.mem_of_mem_ofList he)
  obtain ⟨hname, hwell⟩ := h.of_mem_object hn
  exact ⟨hkey ▸ hname, n.2, hwell, hvalue⟩

theorem wellFormed_names {names : List Text} (h : ∀ name ∈ names, name.WellFormed) :
    (Json.array (names.map .string)).WellFormed :=
  .array (List.forall_mem_map.2 fun name hname => .string (h name hname))

theorem wellFormed_slots (slots : List Nat) : (Json.array (slots.map .ofNat)).WellFormed :=
  .array (List.forall_mem_map.2 fun _ _ => .number _)

theorem WellFormed.of_names {names : List Text} (h : (Json.array (names.map .string)).WellFormed) :
    ∀ name ∈ names, name.WellFormed := by
  intro name hname
  cases h.of_mem_array (List.mem_map_of_mem hname) with
  | string h => exact h

theorem wellFormed_entries {m : OrderedMap Text α} {write : α → Json}
    (hkeys : ∀ key ∈ m.keys, key.WellFormed) (h : ∀ a ∈ m.values, (write a).WellFormed) :
    (Json.object (m.mapValues write).entries).WellFormed := by
  rw [OrderedMap.entries_mapValues]
  exact .object (List.forall_mem_map.2 fun e he => hkeys e.1 (List.mem_map_of_mem he))
    (List.forall_mem_map.2 fun e he => h e.2 (List.mem_map_of_mem he))

/-- The names of declared fields are plain. -/
theorem wellFormed_record (fields : List (String × Json)) (h : ∀ e ∈ fields, e.2.WellFormed) :
    (Json.object (fields.map fun (name, v) => (name.toText, v))).WellFormed :=
  .object (List.forall_mem_map.2 fun _ _ => Text.wellFormed_ofChars _) (List.forall_mem_map.2 h)

end Json

/-! ## The current layout -/

namespace CurrentDocument

variable {d : CurrentDocument}

theorem Fits.wellFormed {v : Json} (h : Fits v d) (hv : v.WellFormed) : d.axes.WellFormed := by
  obtain ⟨-, -, axes, _, haxes, -, hfields⟩ := h
  have hwell : axes.WellFormed := hv.of_hasFields hfields (e := ("axes".toText, axes)) (by simp)
  refine ⟨List.forall_mem_map.2 fun e he => (hwell.of_hasEntries haxes he).1,
    List.forall_mem_map.2 fun e he => ?_⟩
  obtain ⟨-, w, hw, hfits⟩ := hwell.of_hasEntries haxes he
  exact (hw.of_hasFields hfits List.mem_cons_self).of_names

theorem wellFormed_axisToJson {r : AxisRecord} (h : ∀ name ∈ r.names, name.WellFormed) :
    (axisToJson r).WellFormed := by
  refine Json.wellFormed_record [("attribute_names", _), ("is_hierarchical", _)] ?_
  simp only [List.forall_mem_cons, List.not_mem_nil, false_imp_iff, implies_true, and_true]
  exact ⟨Json.wellFormed_names h, .bool _⟩

theorem wellFormed_attributeToJson (r : AttributeRecord) : (attributeToJson r).WellFormed := by
  refine Json.wellFormed_record [("values", _), ("encryption_hint", _)] ?_
  simp only [List.forall_mem_cons, List.not_mem_nil, false_imp_iff, implies_true, and_true]
  exact ⟨Json.wellFormed_slots r.slots, .string r.hint.wellFormed_name⟩

theorem wellFormed_toJson (haxes : d.axes.WellFormed)
    (hkeys : ∀ key ∈ d.attributes.keys, key.WellFormed) : d.toJson.WellFormed := by
  refine Json.wellFormed_record [("version", _), ("last_attribute_value", _),
    ("max_attribute_creations", _), ("axes", _), ("attributes", _)] ?_
  simp only [List.forall_mem_cons, List.not_mem_nil, false_imp_iff, implies_true, and_true]
  refine ⟨.string (by decide), .number _, .number _, ?_, ?_⟩
  · exact Json.wellFormed_entries haxes.keys fun r hr => wellFormed_axisToJson (haxes.lists r hr)
  · exact Json.wellFormed_entries hkeys fun r _ => wellFormed_attributeToJson r

/-! ### Replaced names -/

/-- The surrogates in the keys are replaced. Of keys that come to be the same the last counts. -/
def withReplacedKeys {α : Type} (m : OrderedMap Text α) : OrderedMap Text α :=
  .ofList (m.entries.map fun (key, a) => (key.replaced, a))

theorem withReplacedKeys_of_wellFormed {α : Type} {m : OrderedMap Text α}
    (hm : ∀ key ∈ m.keys, key.WellFormed) : withReplacedKeys m = m := by
  have hentries : (m.entries.map fun (key, a) => (key.replaced, a)) = m.entries := by
    refine (List.map_congr_left fun e he => ?_).trans (List.map_id m.entries)
    exact Prod.ext (Text.replaced_of_wellFormed (hm e.1 (List.mem_map_of_mem he))) rfl
  rw [withReplacedKeys, hentries, OrderedMap.ofList_entries]

/-- The document as it is written. -/
def replaced (d : CurrentDocument) : CurrentDocument :=
  ⟨d.last, d.maximum, withReplacedKeys d.axes, withReplacedKeys d.attributes⟩

theorem replaced_of_wellFormed (haxes : ∀ axis ∈ d.axes.keys, axis.WellFormed)
    (hkeys : ∀ key ∈ d.attributes.keys, key.WellFormed) : d.replaced = d := by
  rw [replaced, withReplacedKeys_of_wellFormed haxes, withReplacedKeys_of_wellFormed hkeys]

theorem unencodable?_axisToJson {r : AxisRecord} :
    (axisToJson r).unencodable? = none ↔ ∀ name ∈ r.names, name.WellFormed := by
  simp [axisToJson]

theorem unencodable?_attributeToJson (r : AttributeRecord) :
    (attributeToJson r).unencodable? = none := by
  simp [attributeToJson, Json.ofNat, Hint.wellFormed_name]

theorem unencodable?_toJson : d.toJson.unencodable? = none ↔ d.axes.ListsWellFormed := by
  have hentries : ∀ {α : Type} {m : OrderedMap Text α} {write : α → Json},
      (Json.object (m.mapValues write).entries).unencodable? = none ↔
        ∀ a ∈ m.values, (write a).unencodable? = none := by
    intro α m write
    rw [Json.unencodable?_object, OrderedMap.entries_mapValues, OrderedMap.values]
    simp only [List.forall_mem_map]
  have hversion : versionName.WellFormed := by decide
  simp only [toJson, Json.unencodable?_object, List.forall_mem_cons, List.not_mem_nil,
    Json.unencodable?_string, hversion, Json.ofNat, Json.unencodable?_number, hentries,
    unencodable?_axisToJson, unencodable?_attributeToJson, false_imp_iff, implies_true, and_true,
    true_and]
  rfl

theorem withReplacedNames_axisToJson (r : AxisRecord) :
    (axisToJson r).withReplacedNames = axisToJson r := by
  simp [axisToJson, Function.comp_def]

theorem withReplacedNames_attributeToJson (r : AttributeRecord) :
    (attributeToJson r).withReplacedNames = attributeToJson r := by
  simp [attributeToJson, Json.ofNat, Function.comp_def]

/-- What is written of a document is the document with replaced names. -/
theorem fits_withReplacedNames (h : d.Ranged) : Fits d.toJson.withReplacedNames d.replaced := by
  have hentries : ∀ {α : Type} {m : OrderedMap Text α} {write : α → Json} {fits : Json → α → Prop},
      (∀ a ∈ m.values, (write a).withReplacedNames = write a ∧ fits (write a) a) →
      Json.HasEntries fits (Json.object (m.mapValues write).entries).withReplacedNames
        (withReplacedKeys m) := by
    intro α m write fits hm
    refine ⟨_, _, Json.withReplacedNames_object _, ?_, rfl⟩
    rw [OrderedMap.entries_mapValues, List.map_map, List.forall₂_map_left_iff,
      List.forall₂_map_right_iff, List.forall₂_same]
    intro e he
    obtain ⟨hwrite, hfits⟩ := hm e.2 (List.mem_map_of_mem he)
    refine ⟨rfl, ?_⟩
    show fits (write e.2).withReplacedNames e.2
    rwa [hwrite]
  have hfields : d.toJson.withReplacedNames = .object [("version".toText, .string versionName),
      ("last_attribute_value".toText, .ofNat d.last),
      ("max_attribute_creations".toText, .ofNat d.maximum),
      ("axes".toText, (Json.object (d.axes.mapValues axisToJson).entries).withReplacedNames),
      ("attributes".toText,
        (Json.object (d.attributes.mapValues attributeToJson).entries).withReplacedNames)] := by
    simp [toJson, Json.ofNat]
  refine ⟨h.last_le, h.maximum_le, _, _, hentries ?_, hentries ?_,
    hfields ▸ Json.hasFields_object (by simp)⟩
  · exact fun r _ => ⟨withReplacedNames_axisToJson r, Json.hasFields_object (by simp)⟩
  · exact fun r hr => ⟨withReplacedNames_attributeToJson r, Json.hasFields_object (by simp),
      h.slots_le r hr⟩

end CurrentDocument

/-! ## The legacy layout -/

namespace LegacyDocument

variable {d : LegacyDocument}

theorem Fits.wellFormed {v : Json} (h : Fits v d) (hv : v.WellFormed) : d.axes.WellFormed := by
  obtain ⟨-, -, axes, _, haxes, -, hfields⟩ := h
  have hwell : axes.WellFormed := hv.of_hasFields hfields (e := ("axes".toText, axes)) (by simp)
  refine ⟨List.forall_mem_map.2 fun e he => (hwell.of_hasEntries haxes he).1,
    List.forall_mem_map.2 fun e he => ?_⟩
  obtain ⟨-, w, hw, rfl⟩ := hwell.of_hasEntries haxes he
  exact (hw.of_mem_array List.mem_cons_self).of_names

theorem wellFormed_toJson (haxes : d.axes.WellFormed)
    (hkeys : ∀ key ∈ d.slots.keys, key.WellFormed) : d.toJson.WellFormed := by
  refine Json.wellFormed_record [("last_attribute_value", _), ("max_attribute_value", _),
    ("axes", _), ("attribute_to_int", _)] ?_
  simp only [List.forall_mem_cons, List.not_mem_nil, false_imp_iff, implies_true, and_true]
  refine ⟨.number _, .number _, ?_, ?_⟩
  · refine Json.wellFormed_entries haxes.keys fun r hr => .array ?_
    simp only [List.forall_mem_cons, List.not_mem_nil, false_imp_iff, implies_true, and_true]
    exact ⟨Json.wellFormed_names (haxes.lists r hr), .bool _⟩
  · exact Json.wellFormed_entries hkeys fun slots _ => Json.wellFormed_slots slots

end LegacyDocument

end AttributeAccess
