import AttributeAccess.Proofs.Registry.Migration

/-!
# Layouts never compete

The current layout requires a field that the old one forbids, so no payload is accepted as both and
the order of the attempts does not matter (`layouts_exclusive`). It matters for what is reported:
when both fail, the issues are those with the current layout (`ofJson_eq_error_iff`). A document
read as an old one by mistake would lose its hints, since reading an old one makes all of them
classic (`hint_ofLegacy`).
-/

namespace AttributeAccess

namespace Document

theorem ofJson_eq_error_iff {v : Json} {issues : List Issue} :
    ofJson v = .error issues ↔
      Layout.current.read v = .error issues ∧ ∀ d, Layout.legacy.read v ≠ .ok d := by
  cases hc : CurrentDocument.ofJson v with
  | ok c => simp [ofJson, Layout.read, hc, Except.map]
  | error is =>
    cases hl : LegacyDocument.ofJson v <;> simp [ofJson, Layout.read, hc, hl, Except.map]

theorem readPayload_eq_error {α : Type} {read : Json → Reading α} {p : Payload} {e : Fault} :
    readPayload read p = .error e ↔
      (p.readStrict? = none ∧ e = .deserialization [⟨unreadable p, []⟩]) ∨
      ∃ v issues, p.readStrict? = some v ∧ read v = .error issues ∧
        e = .deserialization issues := by
  unfold readPayload
  cases p.readStrict? with
  | none => simp [eq_comm]
  | some v => cases h : read v <;> simp [Except.mapError, h, eq_comm]

/-- What is reported of a payload that neither layout accepts is what the current one reports. -/
theorem decode_eq_error_iff {p : Payload} {e : Fault} :
    decode p = .error e ↔
      Layout.current.decode p = .error e ∧ ∀ d, Layout.legacy.decode p ≠ .ok d := by
  unfold decode Layout.decode
  cases hp : p.readStrict? with
  | none => simp [readPayload_eq_error, readPayload_eq_ok, hp]
  | some v =>
    have hread : ∀ {read : Json → Reading Document}, readPayload read p = .error e ↔
        ∃ issues, read v = .error issues ∧ e = .deserialization issues := by
      simp [readPayload_eq_error, hp]
    have hlegacy : ∀ d, readPayload Layout.legacy.read p = .ok d ↔
        Layout.legacy.read v = .ok d := by
      simp [readPayload_eq_ok, hp]
    simp only [hread, ofJson_eq_error_iff, ne_eq, hlegacy]
    constructor
    · rintro ⟨issues, ⟨hissues, hnone⟩, rfl⟩
      exact ⟨⟨issues, hissues, rfl⟩, hnone⟩
    · rintro ⟨⟨issues, hissues, rfl⟩, hnone⟩
      exact ⟨issues, ⟨hissues, hnone⟩, rfl⟩

theorem layout_decode_iff {p : Payload} {l : Layout} {d : Document} :
    l.decode p = .ok d ↔ decode p = .ok d ∧ d.layout = l := by
  rw [layout_decode_eq_ok, decode_eq_ok, and_comm]

/-- Trying every layout, in any order and as often as one likes, gives the same. -/
theorem toOption_decode (p : Payload) {order : List Layout} (horder : ∀ l, l ∈ order) :
    (decode p).toOption = order.findSome? fun l => (l.decode p).toOption := by
  have htoOption : ∀ {r : Except Fault Document} {d}, r.toOption = some d ↔ r = .ok d := by
    intro r d
    cases r <;> simp [Except.toOption]
  have hfound : ∀ {d}, (order.findSome? fun l => (l.decode p).toOption) = some d →
      decode p = .ok d := by
    intro d hd
    obtain ⟨l, -, hl⟩ := List.exists_of_findSome?_eq_some hd
    exact (layout_decode_iff.1 (htoOption.1 hl)).1
  refine Option.ext fun d => htoOption.trans ⟨fun hd => ?_, hfound⟩
  have hlayout := layout_decode_iff.2 ⟨hd, rfl⟩
  have hsome : (order.findSome? fun l => (l.decode p).toOption).isSome = true := by
    refine List.findSome?_isSome_iff.2 ⟨d.layout, horder _, ?_⟩
    rw [htoOption.2 hlayout, Option.isSome_some]
  obtain ⟨d', hd'⟩ := Option.isSome_iff_exists.1 hsome
  cases hd.symm.trans (hfound hd')
  exact hd'

end Document

namespace Registry

theorem hint_ofLegacy {d : LegacyDocument} {record : AttributeRecord}
    (h : record ∈ (ofLegacy d).attributes.values) : record.hint = .classic := by
  obtain ⟨a, ha⟩ := OrderedMap.mem_values_iff.1 h
  obtain ⟨-, hget⟩ := get?_keyed.1 ha
  rw [OrderedMap.get?_mapValues] at hget
  obtain ⟨slots, -, rfl⟩ := Option.map_eq_some_iff.1 hget
  rfl

/-- **No payload is a document of both layouts.** So reading finds a layout exactly if that layout
alone accepts the payload, in whatever order the two are tried, and from the old layout comes a
registry whose hints are all classic. If neither accepts it, the issues are those with the current
layout. -/
theorem layouts_exclusive (p : Payload) :
    (∀ c l, Layout.current.decode p = .ok c → Layout.legacy.decode p ≠ .ok l) ∧
    (∀ l d, Document.decode p = .ok d ∧ d.layout = l ↔ l.decode p = .ok d) ∧
    (∀ order : List Layout, (∀ l, l ∈ order) →
      (Document.decode p).toOption = order.findSome? fun l => (l.decode p).toOption) ∧
    (∀ d, Layout.legacy.decode p = .ok d → ∃ r, decode p = .ok r ∧
      ∀ record ∈ r.attributes.values, record.hint = .classic) ∧
    ((∀ (l : Layout) d, l.decode p ≠ .ok d) → ∃ issues,
      Layout.current.decode p = .error (.deserialization issues) ∧
      Document.decode p = .error (.deserialization issues)) := by
  refine ⟨fun c l hc hl => ?_, fun l d => Document.layout_decode_iff.symm,
    fun order => Document.toOption_decode p, fun d hd => ?_, fun hnone => ?_⟩
  · obtain ⟨hc, hcurrent⟩ := Document.layout_decode_iff.1 hc
    obtain ⟨hl, hlegacy⟩ := Document.layout_decode_iff.1 hl
    cases hc.symm.trans hl
    rw [hcurrent] at hlegacy
    cases hlegacy
  · obtain ⟨hd, hlegacy⟩ := Document.layout_decode_iff.1 hd
    cases d with
    | current c => cases hlegacy
    | legacy l => exact ⟨ofLegacy l, decode_of_document hd, fun record => hint_ofLegacy⟩
  · cases he : Layout.current.decode p with
    | ok d => exact absurd he (hnone _ d)
    | error e =>
      have hboth := Document.decode_eq_error_iff.2 ⟨he, hnone .legacy⟩
      rcases Document.readPayload_eq_error.1 he with ⟨-, rfl⟩ | ⟨v, issues, -, -, rfl⟩
      · exact ⟨_, rfl, hboth⟩
      · exact ⟨issues, rfl, hboth⟩

/-- A document of the old layout whose last slot is `null` at first and then `1`. -/
theorem layouts_exclusive_repeated_field :
    let d : LegacyDocument :=
      ⟨1, 2, .ofList [("A".toText, ⟨["x".toText], true⟩)], .ofList [("A::x".toText, [1])]⟩
    let v : Json := .object [("last_attribute_value".toText, .null),
      ("last_attribute_value".toText, .ofNat 1), ("max_attribute_value".toText, .ofNat 2),
      ("axes".toText, .object [("A".toText, .array [.array [.string "x".toText], .bool true])]),
      ("attribute_to_int".toText, .object [("A::x".toText, .array [.ofNat 1])])]
    let p : Payload := .text v.compact
    Layout.legacy.decode p = .ok (.legacy d) ∧ (∀ c, Layout.current.decode p ≠ .ok c) ∧
      Document.decode p = .ok (.legacy d) := by
  intro d v p
  have hranged : d.Ranged := ⟨by decide, by decide, by decide⟩
  have hreadable : Json.Readable 4 v := by
    cases LegacyDocument.readable_toJson hranged with
    | object hmembers => exact .object (List.forall_mem_cons.2 ⟨.null, hmembers⟩)
  have hwell : v.WellFormed :=
    .object_cons (by decide) .null (d.wellFormed_toJson (by decide) (by decide))
  have hlegacy : Layout.legacy.decode p = .ok (.legacy d) :=
    Document.readPayload_compact hreadable hwell (by decide) rfl
  obtain ⟨hnever, hfound, -⟩ := layouts_exclusive p
  exact ⟨hlegacy, fun c hc => hnever c _ hc hlegacy, ((hfound _ _).2 hlegacy).1⟩

end Registry

end AttributeAccess
