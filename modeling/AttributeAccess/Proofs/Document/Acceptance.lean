import AttributeAccess.Proofs.Attribute
import AttributeAccess.Proofs.Document.RoundTrip

/-!
# Which documents are accepted

A document that has the shape of its layout is accepted if it is `Consistent`: its keys are
attributes, its slots are counted, and its axes list what has slots. Both layouts ask for the same,
so it is said of `Document` once. Slots are checked one after another against those seen before;
`FirstBadSlot` says which one that reports, by what stands before it.
-/

namespace AttributeAccess

inductive Layout where
  | current
  | legacy
deriving DecidableEq, Repr

namespace Document

def layout : Document → Layout
  | current _ => .current
  | legacy _ => .legacy

def last : Document → Nat
  | current d => d.last
  | legacy d => d.last

def maximum : Document → Nat
  | current d => d.maximum
  | legacy d => d.maximum

def axes : Document → Axes
  | current d => d.axes
  | legacy d => d.axes

def keys : Document → List Text
  | current d => d.attributes.keys
  | legacy d => d.slots.keys

/-- The histories that a document stores. -/
def histories : Document → List (List Nat)
  | current d => d.attributes.values.map (·.slots)
  | legacy d => d.slots.values

/-- The value has the fields of the layout, and this is what they say. -/
def Fits (v : Json) : Document → Prop
  | current d => CurrentDocument.Fits v d
  | legacy d => LegacyDocument.Fits v d

def wrong? (d : Document) : Option Inconsistency :=
  (Consistency.badCounters? d.last d.maximum d.histories.flatten).or
    (Consistency.badAxes? d.axes d.keys)

end Document

namespace Layout

/-- The fields of a document of the layout, not yet compared with each other. -/
def shape : Layout → Json → Reading Document
  | current, v => (CurrentDocument.shape v).map .current
  | legacy, v => (LegacyDocument.shape v).map .legacy

def read : Layout → Json → Reading Document
  | current, v => (CurrentDocument.ofJson v).map .current
  | legacy, v => (LegacyDocument.ofJson v).map .legacy

def decode (l : Layout) (p : Payload) : Except Fault Document :=
  Document.readPayload l.read p

end Layout

/-! ## Keys -/

/-- Each key is two texts with the separator between them, and neither is empty. -/
def KeysSplit (keys : List Text) : Prop :=
  ∀ key ∈ keys, ∃ axis name,
    Text.splitOn Attribute.separator key = [axis, name] ∧ axis ≠ [] ∧ name ≠ []

theorem Attribute.isSome_ofText?_iff {t : Text} :
    (ofText? t).isSome = true ↔
      ∃ axis name, Text.splitOn separator t = [axis, name] ∧ axis ≠ [] ∧ name ≠ [] := by
  unfold ofText?
  split
  · next axis name hsplit =>
    rw [hsplit]
    cases axis <;> cases name <;> simp
  · next hsplit =>
    simp only [Option.isSome_none, Bool.false_eq_true, false_iff]
    rintro ⟨axis, name, heq, -⟩
    exact hsplit axis name heq

theorem Consistency.malformedKey?_eq_none_iff {keys : List Text} :
    malformedKey? keys = none ↔ KeysSplit keys := by
  simp only [malformedKey?_eq_none, Attribute.isSome_ofText?_iff, KeysSplit]

/-! ## Slots -/

/-- No slot exceeds the last one, and none stands twice. -/
def SlotsCounted (last : Nat) (slots : List Nat) : Prop :=
  (∀ slot ∈ slots, slot ≤ last) ∧ slots.Nodup

/-- What is wrong with the first slot that may not stand where it stands. -/
inductive FirstBadSlot (last : Nat) : List Nat → Inconsistency → Prop
  | above (before after) {slot} (h : SlotsCounted last before) (hslot : last < slot) :
      FirstBadSlot last (before ++ slot :: after) (.slotAboveLast slot last)
  | repeated (before after) {slot} (h : SlotsCounted last before) (hslot : slot ≤ last)
      (hmem : slot ∈ before) : FirstBadSlot last (before ++ slot :: after) (.slotRepeated slot)

theorem slotsCounted_concat {last : Nat} {slots : List Nat} {slot : Nat} :
    SlotsCounted last (slots ++ [slot]) ↔ SlotsCounted last slots ∧ slot ≤ last ∧ slot ∉ slots := by
  rw [SlotsCounted, List.forall_mem_append, List.forall_mem_singleton, ← List.concat_eq_append,
    List.nodup_concat, SlotsCounted]
  tauto

/-- What stands behind a bad slot does not matter. -/
theorem FirstBadSlot.append {last : Nat} {slots : List Nat} {cause : Inconsistency}
    (h : FirstBadSlot last slots cause) (more : List Nat) :
    FirstBadSlot last (slots ++ more) cause := by
  cases h with
  | above before after h hslot =>
    rw [List.append_assoc]
    exact .above before (after ++ more) h hslot
  | repeated before after h hslot hmem =>
    rw [List.append_assoc]
    exact .repeated before (after ++ more) h hslot hmem

theorem exists_firstBadSlot {last : Nat} {slots : List Nat} (h : ¬ SlotsCounted last slots) :
    ∃ cause, FirstBadSlot last slots cause := by
  induction slots using List.reverseRecOn with
  | nil => exact absurd ⟨by simp, List.nodup_nil⟩ h
  | append_singleton slots slot ih =>
    by_cases hslots : SlotsCounted last slots
    · by_cases hslot : last < slot
      · exact ⟨_, .above slots [] hslots hslot⟩
      · have hle := Nat.not_lt.1 hslot
        have hmem : slot ∈ slots := by
          by_contra hnew
          exact h (slotsCounted_concat.2 ⟨hslots, hle, hnew⟩)
        exact ⟨_, .repeated slots [] hslots hle hmem⟩
    · obtain ⟨cause, hcause⟩ := ih hslots
      exact ⟨cause, hcause.append [slot]⟩

namespace Consistency

/-- What is wrong with a value does not depend on what it is taken for. -/
theorem map_bind_approve {α β : Type} {r : Reading α} {f : α → β}
    {wrong? : α → Option Inconsistency} {wrong?' : β → Option Inconsistency}
    (h : ∀ a, wrong?' (f a) = wrong? a) :
    (r.bind fun a => approve (wrong? a) a).map f =
      (r.map f).bind fun b => approve (wrong?' b) b := by
  cases r with
  | error issues => rfl
  | ok a =>
    show (approve (wrong? a) a).map f = approve (wrong?' (f a)) (f a)
    rw [h]
    cases wrong? a <;> rfl

variable {last : Nat}

/-- Slots that are counted are passed and then seen, the last one first. -/
theorem badSlot?_append {seen before : List Nat} (hle : ∀ slot ∈ before, slot ≤ last)
    (hd : (before.reverse ++ seen).Nodup) (slots : List Nat) :
    badSlot? last seen (before ++ slots) = badSlot? last (before.reverse ++ seen) slots := by
  induction before generalizing seen with
  | nil => rfl
  | cons first before ih =>
    rw [List.forall_mem_cons] at hle
    rw [List.reverse_cons, List.append_assoc] at hd ⊢
    have hfirst : first ∉ seen := (List.nodup_cons.1 (List.nodup_append.1 hd).2.1).1
    rw [List.cons_append, badSlot?, if_neg (Nat.not_lt.2 hle.1), if_neg hfirst]
    exact ih hle.2 hd

theorem badSlot?_of_counted {before : List Nat} (h : SlotsCounted last before) (slots : List Nat) :
    badSlot? last [] (before ++ slots) = badSlot? last before.reverse slots := by
  rw [badSlot?_append h.1 (by rw [List.append_nil, List.nodup_reverse]; exact h.2), List.append_nil]

theorem badSlot?_of_firstBadSlot {slots : List Nat} {cause : Inconsistency}
    (h : FirstBadSlot last slots cause) : badSlot? last [] slots = some cause := by
  cases h with
  | above before after h hslot => rw [badSlot?_of_counted h, badSlot?, if_pos hslot]
  | repeated before after h hslot hmem =>
    rw [badSlot?_of_counted h, badSlot?, if_neg (Nat.not_lt.2 hslot),
      if_pos (List.mem_reverse.2 hmem)]

end Consistency

/-! ## Documents -/

namespace Document

/-- What is asked of a document once its fields have the right shape. -/
structure Consistent (d : Document) : Prop where
  keys : KeysSplit d.keys
  last_le : d.last ≤ d.maximum
  slots : SlotsCounted d.last d.histories.flatten
  names : ∀ axis record, d.axes.get? axis = some record → record.names.Nodup
  listed : ∀ t, (∃ axis record, d.axes.get? axis = some record ∧
    ∃ name ∈ record.names, Attribute.text ⟨axis, name⟩ = t) ↔ t ∈ d.keys

variable {v : Json} {d d' : Document} {l : Layout}

theorem consistent_iff :
    d.Consistent ↔ Consistency.malformedKey? d.keys = none ∧ d.wrong? = none := by
  rw [Consistency.malformedKey?_eq_none_iff, wrong?, Option.or_eq_none_iff,
    Consistency.badCounters?_eq_none, Consistency.badAxes?_eq_none]
  simp only [Consistency.mem_listed]
  constructor
  · rintro ⟨hkeys, hlast, ⟨hle, hd⟩, hnames, hlisted⟩
    exact ⟨hkeys, ⟨hlast, hd, hle⟩, hnames, hlisted⟩
  · rintro ⟨hkeys, ⟨hlast, hd, hle⟩, hnames, hlisted⟩
    exact ⟨hkeys, hlast, ⟨hle, hd⟩, hnames, hlisted⟩

theorem shape_eq_ok : l.shape v = .ok d ↔
    d.layout = l ∧ d.Fits v ∧ Consistency.malformedKey? d.keys = none := by
  cases l <;> cases d <;>
    simp [Layout.shape, layout, Fits, keys, CurrentDocument.shape_eq_ok, LegacyDocument.shape_eq_ok]

/-- Reading a document compares the parts of its shape. -/
theorem read_eq (l : Layout) (v : Json) :
    l.read v = (l.shape v).bind fun d => Consistency.approve d.wrong? d := by
  cases l with
  | current => exact Consistency.map_bind_approve fun _ => rfl
  | legacy => exact Consistency.map_bind_approve fun _ => rfl

theorem read_eq_ok : l.read v = .ok d ↔ d.layout = l ∧ d.Fits v ∧ d.Consistent := by
  rw [read_eq, Consistency.bind_approve_eq_ok, shape_eq_ok, consistent_iff, and_assoc, and_assoc]

theorem Fits.maximum_le (h : d.Fits v) : d.maximum ≤ slotMaximum := by
  cases d with
  | current d => exact CurrentDocument.Fits.maximum_le h
  | legacy d => exact LegacyDocument.Fits.maximum_le h

/-- A value is one document at most, of one layout. -/
theorem Fits.unique (h : d.Fits v) (h' : d'.Fits v) : d = d' := by
  cases d <;> cases d'
  · exact congrArg current (CurrentDocument.Fits.unique h h')
  · exact absurd h (LegacyDocument.Fits.not_current h' _)
  · exact absurd h' (LegacyDocument.Fits.not_current h _)
  · exact congrArg legacy (LegacyDocument.Fits.unique h h')

/-- Reading tries both layouts, and what one of them takes the other refuses. -/
theorem ofJson_eq_ok_iff : ofJson v = .ok d ↔ d.layout.read v = .ok d := by
  rw [ofJson_eq_ok]
  cases d <;> simp [Layout.read, layout]

theorem layout_decode_eq_ok {p : Payload} : l.decode p = .ok d ↔
    d.layout = l ∧ ∃ v, p.readStrict? = some v ∧ d.Fits v ∧ d.Consistent := by
  rw [Layout.decode, readPayload_eq_ok]
  simp only [read_eq_ok]
  tauto

theorem decode_eq_ok {p : Payload} : decode p = .ok d ↔
    ∃ v, p.readStrict? = some v ∧ d.Fits v ∧ d.Consistent := by
  rw [decode, readPayload_eq_ok]
  simp only [ofJson_eq_ok_iff, read_eq_ok, true_and]

/-- The names in a document that was read are well-formed. -/
theorem wellFormed_axes_of_decode {p : Payload} (h : decode p = .ok d) : d.axes.WellFormed := by
  obtain ⟨v, hv, hfits, -⟩ := decode_eq_ok.1 h
  have hwell := Payload.wellFormed_of_readStrict? hv
  cases d with
  | current d => exact CurrentDocument.Fits.wellFormed hfits hwell
  | legacy d => exact LegacyDocument.Fits.wellFormed hfits hwell

/-- The slots are compared before the axes, so a bad one is what is reported. -/
theorem read_eq_error_of_firstBadSlot (hd : d.Fits v) (hkeys : KeysSplit d.keys)
    (hlast : d.last ≤ d.maximum) {cause : Inconsistency}
    (h : FirstBadSlot d.last d.histories.flatten cause) :
    d.layout.read v = .error [⟨.inconsistent cause, []⟩] := by
  have hshape : d.layout.shape v = .ok d :=
    shape_eq_ok.2 ⟨rfl, hd, Consistency.malformedKey?_eq_none_iff.2 hkeys⟩
  have hwrong : d.wrong? = some cause := by
    rw [wrong?, Consistency.badCounters?, if_neg (Nat.not_lt.2 hlast),
      Consistency.badSlot?_of_firstBadSlot h, Option.some_or]
  rw [read_eq, hshape]
  show Consistency.approve d.wrong? d = _
  rw [hwrong]
  rfl

/-- **What has the shape of a document is accepted if and only if it is consistent.** This holds of
either layout read alone and of reading with both attempts, and what is accepted is the document
that the value describes. If the keys are attributes and the maximum is kept, the first bad slot is
what a layout reports. -/
theorem decode_iff_consistent {p : Payload} (hp : p.readStrict? = some v) (hd : d.Fits v) :
    (∀ d', d.layout.decode p = .ok d' ↔ d' = d ∧ d.Consistent) ∧
    (∀ d', decode p = .ok d' ↔ d' = d ∧ d.Consistent) ∧
    (KeysSplit d.keys → d.last ≤ d.maximum → ¬ SlotsCounted d.last d.histories.flatten →
      ∃ cause, FirstBadSlot d.last d.histories.flatten cause ∧
        d.layout.decode p = .error (.deserialization [⟨.inconsistent cause, []⟩])) := by
  have hfits : ∀ d', (∃ v, p.readStrict? = some v ∧ d'.Fits v ∧ d'.Consistent) ↔
      d' = d ∧ d.Consistent := by
    intro d'
    constructor
    · rintro ⟨_, hv, hd', hcons⟩
      cases hp.symm.trans hv
      cases hd'.unique hd
      exact ⟨rfl, hcons⟩
    · rintro ⟨rfl, hcons⟩
      exact ⟨v, hp, hd, hcons⟩
  refine ⟨fun d' => ?_, fun d' => ?_, fun hkeys hlast hbad => ?_⟩
  · rw [layout_decode_eq_ok, hfits, and_iff_right_of_imp]
    rintro ⟨rfl, -⟩
    rfl
  · rw [decode_eq_ok, hfits]
  · obtain ⟨cause, hcause⟩ := exists_firstBadSlot hbad
    refine ⟨cause, hcause, ?_⟩
    rw [Layout.decode, readPayload, hp]
    show (d.layout.read v).mapError Fault.deserialization = _
    rw [read_eq_error_of_firstBadSlot hd hkeys hlast hcause]
    rfl

/-- The slot `3` comes again in another history, before one that exceeds the last slot. -/
theorem decode_iff_consistent_repeated :
    let d : CurrentDocument := ⟨4, 5, .ofList [("A".toText, ⟨["x".toText, "y".toText], false⟩)],
      .ofList [("A::x".toText, ⟨[3, 1], .classic⟩), ("A::y".toText, ⟨[2, 3, 9], .hybridized⟩)]⟩
    let p : Payload := .text d.toJson.compact
    p.readStrict? = some d.toJson ∧ (Document.current d).Fits d.toJson ∧
      (∀ d', decode p ≠ .ok d') ∧ Layout.current.decode p =
        .error (.deserialization [⟨.inconsistent (.slotRepeated 3), []⟩]) := by
  intro d p
  have hranged : d.Ranged := ⟨by decide, by decide, by decide⟩
  have hfits : (Document.current d).Fits d.toJson := CurrentDocument.fits_toJson hranged
  have hp : p.readStrict? = some d.toJson :=
    Payload.readStrict?_compact (CurrentDocument.readable_toJson hranged)
      (CurrentDocument.wellFormed_toJson (by decide) (by decide)) (by decide)
  have hkeys : KeysSplit (Document.current d).keys := Consistency.malformedKey?_eq_none_iff.1 rfl
  have hbad : ¬ SlotsCounted 4 [3, 1, 2, 3, 9] := fun h => absurd h.2 (by decide)
  obtain ⟨-, hdecode, hreport⟩ := decode_iff_consistent hp hfits
  obtain ⟨cause, hcause, herror⟩ := hreport hkeys (by decide) hbad
  have hfirst : Consistency.badSlot? 4 [] [3, 1, 2, 3, 9] = some (.slotRepeated 3) := by decide
  cases Option.some.inj (hfirst.symm.trans (Consistency.badSlot?_of_firstBadSlot hcause))
  exact ⟨hp, hfits, fun d' hd' => hbad ((hdecode d').1 hd').2.slots, herror⟩

end Document

end AttributeAccess
