import AttributeAccess.Exchange
import AttributeAccess.Proofs.Registry.Migration

/-!
# What the exchange of texts refuses

An operation on texts reads, works and writes. What the host gets wrong is a fault of the first two
stages. A result that breaks the rules of documents is refused by the last one, when the operation
has succeeded already: adding an axis comes to that exactly when one of its names makes an
attribute that no text can write (`encode_addAxis_isOk_iff`). Names that cannot be encoded are no
concern of these operations, since none is ever read.
-/

namespace AttributeAccess.Exchange

open Registry (Origin)

/-! ## Stages -/

theorem written_ne_fault (r : Registry) (f : Fault) : written r ≠ .error (.fault f) := by
  unfold written
  cases r.encode with
  | ok t => exact nofun
  | error e => cases e <;> exact nofun

theorem orInvalid_eq_ok {α : Type} {r : Reading α} {a : α} : orInvalid r = .ok a ↔ r = .ok a :=
  mapError_eq_ok

theorem orFault_eq_ok {α : Type} {e : Except Fault α} {a : α} : orFault e = .ok a ↔ e = .ok a :=
  mapError_eq_ok

theorem orMisuse_eq_ok {α : Type} {e : Except Misuse α} {a : α} : orMisuse e = .ok a ↔ e = .ok a :=
  mapError_eq_ok

theorem written_eq_ok {r : Registry} {t : Text} : written r = .ok t ↔ r.encode = .ok t :=
  mapError_eq_ok

/-- A text is read as an expression if it is not longer than the settings allow. -/
theorem parse_string (s : Settings) (t : Text) :
    parse (.ok s) (.string t) =
      if s.expressionLimit < t.length then
        .error (.fault (.expression (.tooLong t.length s.expressionLimit)))
      else orFault ((AccessPolicy.ofExpression t).bind AccessPolicy.encode) := by
  simp [parse, orInvalid, orMisuse, Json.length, Json.elements, Json.asText, Except.mapError, bind,
    Except.bind]

/-- With the first two stages done, the registry that has the axis is written. -/
theorem addAxis_eq_written {registry axis : Payload} {r s : Registry} {a : Axis}
    (hr : Registry.decode registry = .ok r) (ha : Axis.decode axis = .ok a)
    (hs : r.addAxis a = .ok s) : addAxis registry axis = written s := by
  simp [addAxis, orFault, Except.mapError, hr, ha, hs, bind, Except.bind]

theorem addAxis_cases (registry axis : Payload) :
    (∃ f, addAxis registry axis = .error (.fault f)) ∨
      ∃ r a s, Registry.decode registry = .ok r ∧ Axis.decode axis = .ok a ∧
        r.addAxis a = .ok s := by
  unfold addAxis
  cases hr : Registry.decode registry with
  | error f => exact .inl ⟨f, rfl⟩
  | ok r =>
    cases ha : Axis.decode axis with
    | error f => exact .inl ⟨f, rfl⟩
    | ok a =>
      cases hs : r.addAxis a with
      | error f => exact .inl ⟨f, by simp [orFault, Except.mapError, hs, bind, Except.bind]⟩
      | ok s => exact .inr ⟨r, a, s, rfl, rfl, hs⟩

/-! ## Writing -/

/-- The names of a registry and an axis that were read are well-formed, and stay it. -/
theorem wellFormed_axes_addAxis {registry axis : Payload} {r s : Registry} {a : Axis}
    (hr : Registry.decode registry = .ok r) (ha : Axis.decode axis = .ok a)
    (hs : r.addAxis a = .ok s) : s.axes.WellFormed :=
  Registry.wellFormed_axes_addAxis (Registry.wellFormed_axes_of_decode hr) hs
    (Axis.named_of_decode ha)

/-- An axis leaves a registry that was read writable exactly when its attributes are. -/
theorem encode_addAxis_isOk_iff {registry axis : Payload} {r s : Registry} {a : Axis}
    (hr : Registry.decode registry = .ok r) (ha : Axis.decode axis = .ok a)
    (hs : r.addAxis a = .ok s) :
    (∃ t, s.encode = .ok t) ↔ ∀ name ∈ a.names, Attribute.Writable ⟨a.name, name⟩ := by
  have horigin : Origin r := .document hr
  rw [Registry.encode_isOk_iff ((Registry.Agreeing.origin horigin).addAxis hs)
    ((Registry.Counted.origin horigin).addAxis hs),
    and_iff_left (wellFormed_axes_addAxis hr ha hs).lists]
  simp only [Registry.mem_keys_addAxis hs]
  constructor
  · exact fun h name hname => h _ (.inl ⟨rfl, hname⟩)
  · rintro h ⟨axis, name⟩ (⟨rfl, hname⟩ | hold)
    · exact h name hname
    · exact (Registry.representable_of_origin horigin hold).writable

/-- Adding an axis to a text ends in a fault or in a text that is read again, unless both texts are
read, the axis is added, and one of its attributes cannot be written. -/
theorem addAxis_settled_iff (registry axis : Payload) :
    ((∃ f, addAxis registry axis = .error (.fault f)) ∨
      ∃ t s, addAxis registry axis = .ok t ∧ Registry.decode (.text t) = .ok s) ↔
    ¬ ∃ r a s, Registry.decode registry = .ok r ∧ Axis.decode axis = .ok a ∧
      r.addAxis a = .ok s ∧ ∃ name ∈ a.names, ¬ Attribute.Writable ⟨a.name, name⟩ := by
  constructor
  · rintro hdone ⟨r, a, s, hr, ha, hs, name, hname, hunwritable⟩
    rw [addAxis_eq_written hr ha hs] at hdone
    rcases hdone with ⟨f, hf⟩ | ⟨t, s', ht, -⟩
    · exact written_ne_fault s f hf
    · exact hunwritable
        ((encode_addAxis_isOk_iff hr ha hs).1 ⟨t, written_eq_ok.1 ht⟩ name hname)
  · intro hnot
    rcases addAxis_cases registry axis with hfault | ⟨r, a, s, hr, ha, hs⟩
    · exact .inl hfault
    · have hall : ∀ name ∈ a.names, Attribute.Writable ⟨a.name, name⟩ := by
        intro name hname
        by_contra hunwritable
        exact hnot ⟨r, a, s, hr, ha, hs, name, hname, hunwritable⟩
      obtain ⟨t, ht⟩ := (encode_addAxis_isOk_iff hr ha hs).2 hall
      have hmax := ((Registry.Counted.origin (.document hr)).addAxis hs).maximum_le
      have hkeys := (wellFormed_axes_addAxis hr ha hs).keys
      refine .inr ⟨t, _, ?_, Registry.decode_encode ht hkeys hmax⟩
      rw [addAxis_eq_written hr ha hs, written_eq_ok, ht]

/-- **Only an unwritable name stands in the way of writing.** After any run, from any origin, a
registry can be written exactly when the texts of its attributes can be read and the names that its
axes list are well-formed. For the operation on texts that means a fault or a text that is read
again, unless an axis is added of which an attribute has no text that can be read. -/
theorem encode_run_and_addAxis_iff {start : Registry} (h : Origin start) (ops : List Operation)
    (registry axis : Payload) :
    ((∃ t, (start.run ops).encode = .ok t) ↔
      (∀ a ∈ (start.run ops).attributes.keys, a.Writable) ∧
        (start.run ops).axes.ListsWellFormed) ∧
    (((∃ f, addAxis registry axis = .error (.fault f)) ∨
        ∃ t s, addAxis registry axis = .ok t ∧ Registry.decode (.text t) = .ok s) ↔
      ¬ ∃ r a s, Registry.decode registry = .ok r ∧ Axis.decode axis = .ok a ∧
        r.addAxis a = .ok s ∧ ∃ name ∈ a.names, ¬ Attribute.Writable ⟨a.name, name⟩) := by
  refine ⟨?_, addAxis_settled_iff registry axis⟩
  exact Registry.encode_isOk_iff ((Registry.Agreeing.origin h).run ops)
    ((Registry.Counted.origin h).run ops)

/-- A colon at the end of the axis is written, and two of them inside its name are not. -/
theorem encode_run_and_addAxis_iff_colons :
    let a : Axis := ⟨"A:".toText, [("b".toText, .classic)], false⟩
    let b : Axis := ⟨"A::B".toText, [("x".toText, .classic)], false⟩
    Origin (Registry.empty 1) ∧ (∃ t, ((Registry.empty 1).run [.addAxis a]).encode = .ok t) ∧
      ¬ ∃ t s, addAxis (.text (Registry.empty 1).toDocument.toJson.compact)
        (.text b.toJson.compact) = .ok t ∧ Registry.decode (.text t) = .ok s := by
  intro a b
  have horigin : Origin (Registry.empty 1) :=
    .new (show Registry.new 1 = .ok (Registry.empty 1) from rfl)
  have hr : Registry.decode (.text (Registry.empty 1).toDocument.toJson.compact) =
      .ok (Registry.empty 1) := Registry.decode_toJson rfl (by decide) (by decide)
  have hb : Axis.decode (.text b.toJson.compact) = .ok b :=
    Axis.decode_toJson (by decide)
  obtain ⟨hrun, hsettled⟩ := encode_run_and_addAxis_iff horigin [.addAxis a]
    (.text (Registry.empty 1).toDocument.toJson.compact) (.text b.toJson.compact)
  refine ⟨horigin, hrun.2 (by decide), fun hdone => ?_⟩
  exact hsettled.1 (.inr hdone) ⟨_, b, _, hr, hb, rfl, "x".toText, List.mem_cons_self, by decide⟩

/-- The axis is added before its name turns out to hold a separator: what is wrong is said of the
document that would be written, and not as a fault. -/
theorem addAxis_unwritable :
    let a : Axis := ⟨"A::B".toText, [("x".toText, .classic)], false⟩
    let issues : List Issue :=
      [⟨.inconsistent (.malformedKey "A::B::x".toText), [.key "attributes".toText]⟩]
    (∃ s, (Registry.empty 1).addAxis a = .ok s ∧ s.encode = .error (.invalid issues)) ∧
      addAxis (.text (Registry.empty 1).toDocument.toJson.compact) (.text a.toJson.compact) =
        .error (.invalid issues) := by
  intro a issues
  have hr : Registry.decode (.text (Registry.empty 1).toDocument.toJson.compact) =
      .ok (Registry.empty 1) := Registry.decode_toJson rfl (by decide) (by decide)
  have ha : Axis.decode (.text a.toJson.compact) = .ok a :=
    Axis.decode_toJson (by decide)
  refine ⟨⟨_, rfl, rfl⟩, ?_⟩
  rw [addAxis_eq_written hr ha rfl]
  rfl

end AttributeAccess.Exchange
