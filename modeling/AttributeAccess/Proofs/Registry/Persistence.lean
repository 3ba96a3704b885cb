import AttributeAccess.Proofs.Document.Acceptance
import AttributeAccess.Proofs.Registry.Run
import AttributeAccess.Registry.Persistence

/-!
# A registry written and read

A registry that was read is the registry of an accepted document (`decode_eq_ok`), and one that
was written is read back as the registry of its own document (`decode_encode`). Keys that are no
attributes, or that several attributes share, lose entries on the way, so a registry that was read
holds no slot that its document does not list, and none more often.
-/

namespace AttributeAccess.Registry

/-! ## Entries by attribute -/

theorem slotsIn_keyed_subperm (m : OrderedMap Text AttributeRecord) :
    (slotsIn (keyed m)).Subperm (slotsIn m) := by
  have hsub : ∀ es : List (Text × AttributeRecord),
      ((es.filterMap fun (key, v) => (Attribute.ofText? key).map fun a => (a, v)).flatMap
        (·.2.slots)).Sublist (es.flatMap (·.2.slots)) := by
    intro es
    induction es with
    | nil => exact .slnil
    | cons e es ih =>
      obtain ⟨key, record⟩ := e
      cases hkey : Attribute.ofText? key with
      | none =>
        simp only [List.filterMap_cons, hkey, Option.map_none, List.flatMap_cons]
        exact ih.trans (List.sublist_append_right _ _)
      | some a =>
        simp only [List.filterMap_cons, hkey, Option.map_some, List.flatMap_cons]
        exact ih.append_left _
  rw [slotsIn_eq_flatMap m]
  exact (slotsIn_ofList_subperm _).trans (hsub m.entries).subperm

theorem slotsIn_mapValues_perm {κ : Type} (m : OrderedMap κ (List Nat)) (hint : Hint) :
    (slotsIn (m.mapValues fun slots => ⟨slots.mergeSort, hint⟩)).Perm m.values.flatten := by
  have hperm : ∀ es : List (κ × List Nat),
      (es.flatMap fun e => e.2.mergeSort).Perm (es.map Prod.snd).flatten := by
    intro es
    induction es with
    | nil => exact .refl _
    | cons e es ih =>
      rw [List.flatMap_cons, List.map_cons, List.flatten_cons]
      exact (List.mergeSort_perm e.2 _).append ih
  rw [slotsIn_eq_flatMap, OrderedMap.entries_mapValues, List.flatMap_map]
  exact hperm m.entries

/-! ## Reading -/

theorem issued_ofCurrent (d : CurrentDocument) :
    (ofCurrent d).issued.Subperm (d.attributes.values.flatMap (·.slots)) :=
  slotsIn_keyed_subperm d.attributes

theorem issued_ofLegacy (d : LegacyDocument) :
    (ofLegacy d).issued.Subperm d.slots.values.flatten :=
  (slotsIn_keyed_subperm _).trans (slotsIn_mapValues_perm d.slots .classic).subperm

theorem last_ofDocument (d : Document) : (ofDocument d).last = d.last := by
  cases d <;> rfl

theorem maximum_ofDocument (d : Document) : (ofDocument d).maximum = d.maximum := by
  cases d <;> rfl

theorem axes_ofDocument (d : Document) : (ofDocument d).axes = d.axes := by
  cases d <;> rfl

theorem issued_ofDocument (d : Document) :
    (ofDocument d).issued.Subperm d.histories.flatten := by
  cases d with
  | current d => exact issued_ofCurrent d
  | legacy d => exact issued_ofLegacy d

theorem decode_eq_ok {p : Payload} {r : Registry} :
    decode p = .ok r ↔ ∃ d, Document.decode p = .ok d ∧ ofDocument d = r := by
  unfold decode
  cases Document.decode p <;> simp [Except.map]

theorem decode_of_document {p : Payload} {d : Document} (h : Document.decode p = .ok d) :
    decode p = .ok (ofDocument d) :=
  decode_eq_ok.2 ⟨d, h, rfl⟩

/-- A checked document is read back from its text, as the registry that it describes. -/
theorem decode_toJson {d : CurrentDocument} (h : d.checked = .ok d) (haxes : d.axes.WellFormed)
    (hmax : d.maximum ≤ slotMaximum) : decode (.text d.toJson.compact) = .ok (ofCurrent d) :=
  decode_of_document (Document.decode_toJson h haxes hmax)

theorem decode_toJson_legacy {d : LegacyDocument}
    (hkeys : Consistency.malformedKey? d.slots.keys = none) (hwrong : d.wrong? = none)
    (haxes : d.axes.WellFormed) (hmax : d.maximum ≤ slotMaximum) :
    decode (.text d.toJson.compact) = .ok (ofLegacy d) :=
  decode_of_document (Document.decode_toJson_legacy hkeys hwrong haxes hmax)

theorem wellFormed_axes_of_decode {p : Payload} {r : Registry} (h : decode p = .ok r) :
    r.axes.WellFormed := by
  obtain ⟨d, hd, rfl⟩ := decode_eq_ok.1 h
  rw [axes_ofDocument]
  exact Document.wellFormed_axes_of_decode hd

/-! ## Writing -/

theorem encode_eq_ok {r : Registry} {t : Text} :
    r.encode = .ok t ↔ r.toDocument.checked = .ok r.toDocument ∧ r.axes.ListsWellFormed ∧
      t = r.toDocument.toJson.withReplacedNames.compact := by
  unfold encode
  simp only [bind_eq_ok, mapError_eq_ok, Json.strict_eq_ok]
  constructor
  · rintro ⟨d, hd, hlists, rfl⟩
    obtain ⟨-, -, rfl⟩ := CurrentDocument.checked_eq_ok.1 hd
    exact ⟨hd, CurrentDocument.unencodable?_toJson.1 hlists, rfl⟩
  · rintro ⟨hd, hlists, rfl⟩
    exact ⟨_, hd, CurrentDocument.unencodable?_toJson.2 hlists, rfl⟩

/-- Well-formed names are written as they are. -/
theorem encode_of_checked {r : Registry} (h : r.toDocument.checked = .ok r.toDocument)
    (haxes : r.axes.WellFormed) : r.encode = .ok r.toDocument.toJson.compact := by
  have hwell : r.toDocument.toJson.WellFormed :=
    CurrentDocument.wellFormed_toJson haxes (CurrentDocument.wellFormed_keys h haxes)
  refine encode_eq_ok.2 ⟨h, haxes.lists, ?_⟩
  rw [hwell.withReplacedNames_eq]

/-- What was written is read back, as the registry of the document that was written. -/
theorem decode_encode {r : Registry} {t : Text} (h : r.encode = .ok t)
    (hkeys : ∀ axis ∈ r.axes.keys, axis.WellFormed) (hmax : r.maximum ≤ slotMaximum) :
    decode (.text t) = .ok (ofCurrent r.toDocument) := by
  obtain ⟨hchecked, hlists, -⟩ := encode_eq_ok.1 h
  have haxes : r.axes.WellFormed := ⟨hkeys, hlists⟩
  rw [encode_of_checked hchecked haxes] at h
  cases h
  exact decode_toJson hchecked haxes hmax

/-- If anything is read, it is the document that was written with its names replaced. -/
theorem eq_of_decode_encode {r s : Registry} {t : Text} (h : r.encode = .ok t)
    (hmax : r.maximum ≤ slotMaximum) (hread : decode (.text t) = .ok s) :
    s = ofCurrent r.toDocument.replaced := by
  obtain ⟨hchecked, hlists, rfl⟩ := encode_eq_ok.1 h
  have hranged := CurrentDocument.ranged_of_checked hchecked hmax
  have hreadable := CurrentDocument.readable_toJson hranged
  have hvalue := Payload.readStrict?_compact hreadable.withReplacedNames
    (hreadable.wellFormed_withReplacedNames (CurrentDocument.unencodable?_toJson.2 hlists))
    (by decide)
  obtain ⟨d, hd, rfl⟩ := decode_eq_ok.1 hread
  obtain ⟨v, hv, hfits, -⟩ := Document.decode_eq_ok.1 hd
  cases hvalue.symm.trans hv
  have hreplaced : (Document.current r.toDocument.replaced).Fits
      r.toDocument.toJson.withReplacedNames := CurrentDocument.fits_withReplacedNames hranged
  rw [hfits.unique hreplaced]
  rfl

theorem slotsIn_toDocument_subperm (r : Registry) :
    (slotsIn r.toDocument.attributes).Subperm r.issued := by
  refine (slotsIn_ofList_subperm _).trans ?_
  rw [List.flatMap_map, issued, slotsIn_eq_flatMap]

theorem issued_ofCurrent_replaced (r : Registry) :
    (ofCurrent r.toDocument.replaced).issued.Subperm r.issued := by
  refine (issued_ofCurrent _).trans (.trans ?_ (slotsIn_toDocument_subperm r))
  refine (slotsIn_ofList_subperm _).trans ?_
  rw [List.flatMap_map, slotsIn_eq_flatMap]

end AttributeAccess.Registry
