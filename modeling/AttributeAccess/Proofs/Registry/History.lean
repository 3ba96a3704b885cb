import AttributeAccess.Proofs.Registry.Agreement

/-!
# Histories are appended to

`Keeps` says what an operation may do to the attributes that are registered: each keeps its hint and
its history, and a rotation that succeeds appends one slot to the history of its attribute. A
rotation does nothing else (`Keeps.rotate`). Adding an axis only looks at the names of the axes, and
writes over the records of attributes that are registered on an axis which is not there
(`keeps_addAxis_iff`). Where every attribute is `Anchored` to an axis of the registry there are
none, and operations keep it so. A new registry is anchored, and so is one that was read, unless one
of its axes ends with a colon.
-/

namespace AttributeAccess.Registry

/-- The slots that an operation appends to the history of a registered attribute. -/
def appended (r : Registry) (op : Operation) (a : Attribute) : List Nat :=
  match r.apply op with
  | .ok _ => if op = .rotate a then [r.last + 1] else []
  | .error _ => []

/-- Every registered attribute keeps its hint and its history, up to what is appended. -/
def Keeps (r : Registry) (op : Operation) : Prop :=
  ∀ a record, r.attributes.get? a = some record →
    (r.after op).attributes.get? a = some ⟨record.slots ++ r.appended op a, record.hint⟩

/-- Every attribute stands on an axis of the registry. -/
def Anchored (r : Registry) : Prop :=
  ∀ a ∈ r.attributes.keys, a.axis ∈ r.axes.keys

variable {r s : Registry}

/-! ## One operation -/

namespace Keeps

theorem refused {op : Operation} {e : Fault} (h : r.apply op = .error e) : r.Keeps op := by
  intro a record ha
  simp [after, appended, h, ha]

theorem rotate {a : Attribute} (h : r.apply (.rotate a) = .ok s) : r.Keeps (.rotate a) := by
  intro b record hb
  rw [after_of_apply h]
  rcases get?_rotate h b with ⟨rfl, old, hold, hnew⟩ | ⟨hne, hsame⟩
  · rw [hb] at hold
    cases hold
    simp [appended, h, hnew]
  · simp [appended, h, hne, hsame, hb]

/-- An axis none of whose attributes is registered touches none that is. -/
theorem addAxis {axis : Axis} (h : r.apply (.addAxis axis) = .ok s)
    (hnew : ∀ name ∈ axis.names, ⟨axis.name, name⟩ ∉ r.attributes.keys) :
    r.Keeps (.addAxis axis) := by
  intro a record ha
  rw [after_of_apply h]
  rcases get?_addAxis h a with ⟨⟨haxis, hname⟩, -⟩ | ⟨-, hsame⟩
  · rw [← haxis] at hnew
    exact absurd (OrderedMap.mem_keys_iff.2 ⟨record, ha⟩) (hnew a.name hname)
  · simp [appended, h, hsame, ha]

end Keeps

/-- Adding an axis writes over what is registered under its names: the slot is a new one. -/
theorem keeps_addAxis_iff {axis : Axis} (hr : r.Counted)
    (h : r.apply (.addAxis axis) = .ok s) :
    r.Keeps (.addAxis axis) ↔ ∀ name ∈ axis.names, ⟨axis.name, name⟩ ∉ r.attributes.keys := by
  refine ⟨fun hkeeps name hname hkey => ?_, Keeps.addAxis h⟩
  obtain ⟨record, hrecord⟩ := OrderedMap.mem_keys_iff.1 hkey
  have hkept := hkeeps _ record hrecord
  rw [after_of_apply h] at hkept
  rcases get?_addAxis h ⟨axis.name, name⟩ with ⟨-, slot, hint, hslot, hlt, -⟩ | ⟨hout, -⟩
  · rw [hslot] at hkept
    have hslots : [slot] = record.slots := by
      simpa [appended, h] using congrArg (Option.map AttributeRecord.slots) hkept
    have hheld : slot ∈ record.slots := hslots ▸ List.mem_singleton_self _
    have hle := hr.le_last slot (mem_slotsIn.2 ⟨_, record, hrecord, hheld⟩)
    omega
  · exact hout ⟨rfl, hname⟩

/-! ## Anchored registries -/

namespace Anchored

theorem keeps (hr : r.Anchored) (op : Operation) : r.Keeps op := by
  cases h : r.apply op with
  | error e => exact .refused h
  | ok s =>
    cases op with
    | rotate a => exact .rotate h
    | addAxis axis =>
      have hnew := OrderedMap.get?_eq_none_iff.1 (addAxis_eq_ok.1 h).1
      exact .addAxis h fun name _ hkey => hnew (hr _ hkey)

theorem apply {op : Operation} (h : r.apply op = .ok s) (hr : r.Anchored) : s.Anchored := by
  intro a ha
  cases op with
  | addAxis axis =>
    obtain ⟨-, -, -, hs⟩ := addAxis_eq_ok.1 h
    have haxes : s.axes = r.axes.put axis.name ⟨axis.names, axis.hierarchical⟩ := by rw [hs]
    rw [haxes, OrderedMap.mem_keys_put]
    rcases (mem_keys_addAxis h).1 ha with ⟨haxis, -⟩ | hold
    · exact .inr haxis
    · exact .inl (hr a hold)
  | rotate b =>
    obtain ⟨-, record, -, hs⟩ := rotate_eq_ok.1 h
    have haxes : s.axes = r.axes := by rw [hs]
    rw [haxes]
    exact hr a ((mem_keys_rotate h).1 ha)

theorem run (hr : r.Anchored) (ops : List Operation) : (r.run ops).Anchored :=
  run_induction apply hr ops

/-- The text of a registered attribute is that of a listed one, and where no axis ends with a colon
the two are the same. -/
theorem of_agreeing (hr : r.Agreeing) (hrep : ∀ a ∈ r.attributes.keys, a.Representable)
    (hends : ∀ axis ∈ r.axes.keys, axis.getLast? ≠ some (.char ':')) : r.Anchored := by
  intro a ha
  obtain ⟨b, ⟨record, hget, -⟩, htext⟩ := (hr.texts a.text).2 ⟨a, ha, rfl⟩
  have hkey : b.axis ∈ r.axes.keys := OrderedMap.mem_keys_iff.2 ⟨record, hget⟩
  rwa [← (hrep a ha).eq_of_axis_end htext (hends b.axis hkey)]

end Anchored

/-! ## Where no slot is left -/

/-- An operation that succeeds on a full registry adds an axis without attributes. -/
theorem keeps_of_full (h : r.last = r.maximum) (op : Operation) : r.Keeps op := by
  cases hop : r.apply op with
  | error e => exact .refused hop
  | ok s =>
    cases op with
    | rotate a => exact .rotate hop
    | addAxis axis =>
      obtain ⟨-, -, hsize, -⟩ := addAxis_eq_ok.1 hop
      have hempty : axis.properties = [] := by
        rw [remaining, h, Nat.sub_self, Nat.le_zero] at hsize
        exact List.eq_nil_of_length_eq_zero hsize
      refine .addAxis hop fun name hname => ?_
      rw [Axis.names, hempty] at hname
      cases hname

theorem full_apply {op : Operation} (h : r.apply op = .ok s) (hr : r.last = r.maximum) :
    s.last = s.maximum := by
  cases op with
  | addAxis axis =>
    obtain ⟨-, -, hsize, rfl⟩ := addAxis_eq_ok.1 h
    rw [remaining] at hsize
    simp only
    omega
  | rotate a =>
    have hlt := (rotate_eq_ok.1 h).1
    omega

/-! ## Every run -/

/-- With a slot left, an axis can be added for an attribute that stands on none. -/
theorem exists_not_keeps (hr : r.Counted) (hlt : r.last < r.maximum) (h : ¬ r.Anchored) :
    ∃ op, ¬ r.Keeps op := by
  simp only [Anchored, not_forall] at h
  obtain ⟨a, ha, haxis⟩ := h
  let axis : Axis := ⟨a.axis, [(a.name, .classic)], false⟩
  have hsize : axis.size ≤ r.remaining := by
    show 1 ≤ r.maximum - r.last
    omega
  have hadd : r.apply (.addAxis axis) = .ok _ := addAxis_eq_ok.2
    ⟨OrderedMap.get?_eq_none_iff.2 haxis, List.nodup_singleton a.name, hsize, rfl⟩
  refine ⟨.addAxis axis, fun hkeeps => ?_⟩
  exact (keeps_addAxis_iff hr hadd).1 hkeeps a.name List.mem_cons_self ha

/-- **Histories are append-only in every run that starts anchored.** They are so from an empty
registry and from every document none of whose axes ends with a colon; from any other origin exactly
when each of its attributes stands on one of its axes or no slot is left. -/
theorem keeps_run_iff {start : Registry} (h : Origin start) :
    ((∀ axis ∈ start.axes.keys, axis.getLast? ≠ some (.char ':')) → start.Anchored) ∧
      ((∀ ops op, (start.run ops).Keeps op) ↔ start.Anchored ∨ start.last = start.maximum) := by
  have hcounted := Counted.origin h
  refine ⟨?_, ?_, ?_⟩
  · exact Anchored.of_agreeing (.origin h) fun a ha => representable_of_origin h ha
  · intro hkeeps
    by_contra hnot
    rw [not_or] at hnot
    have hlt : start.last < start.maximum := Nat.lt_of_le_of_ne hcounted.last_le hnot.2
    obtain ⟨op, hop⟩ := exists_not_keeps hcounted hlt hnot.1
    exact hop (hkeeps [] op)
  · rintro (hanchored | hfull) ops op
    · exact (hanchored.run ops).keeps op
    · exact keeps_of_full (run_induction full_apply hfull ops) op

/-- A document with a name that starts with a colon, a history out of order and an empty one. -/
theorem keeps_run_iff_document :
    let d : CurrentDocument := ⟨5, 7, .ofList [("A".toText, ⟨[":x".toText, "y".toText], false⟩)],
      .ofList [("A:::x".toText, ⟨[5, 2], .classic⟩), ("A::y".toText, ⟨[], .hybridized⟩)]⟩
    Origin (ofCurrent d) ∧ (ofCurrent d).Anchored ∧ ∀ ops op, ((ofCurrent d).run ops).Keeps op := by
  intro d
  have hread : decode (.text d.toJson.compact) = .ok (ofCurrent d) :=
    decode_toJson rfl (by decide) (by decide)
  have horigin : Origin (ofCurrent d) := .document hread
  obtain ⟨hends, hkeeps⟩ := keeps_run_iff horigin
  have hanchored := hends (by decide)
  exact ⟨horigin, hanchored, hkeeps.2 (.inl hanchored)⟩

/-- The document lists `b` on the axis `A:`, and `:b` on the axis `A` is read from its key. Adding
that axis replaces the slot and the hint that the document gave. -/
theorem not_keeps_document :
    let d : CurrentDocument := ⟨1, 2, .ofList [("A:".toText, ⟨["b".toText], false⟩)],
      .ofList [("A:::b".toText, ⟨[1], .classic⟩)]⟩
    let a : Attribute := ⟨"A".toText, ":b".toText⟩
    let op : Operation := .addAxis ⟨a.axis, [(a.name, .hybridized)], false⟩
    decode (.text d.toJson.compact) = .ok (ofCurrent d) ∧
      (ofCurrent d).attributes.get? a = some ⟨[1], .classic⟩ ∧
      ((ofCurrent d).after op).attributes.get? a = some ⟨[2], .hybridized⟩ ∧
      ¬ (ofCurrent d).Keeps op := by
  intro d a op
  have hread : decode (.text d.toJson.compact) = .ok (ofCurrent d) :=
    decode_toJson rfl (by decide) (by decide)
  have hbefore : (ofCurrent d).attributes.get? a = some ⟨[1], .classic⟩ := by decide
  have hafter : ((ofCurrent d).after op).attributes.get? a = some ⟨[2], .hybridized⟩ := by decide
  refine ⟨hread, hbefore, hafter, fun hkeeps => ?_⟩
  have hkept := hkeeps a _ hbefore
  rw [hafter] at hkept
  cases hkept

end AttributeAccess.Registry
