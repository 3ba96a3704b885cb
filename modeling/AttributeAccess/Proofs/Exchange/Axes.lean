import AttributeAccess.Proofs.Document.RoundTrip
import AttributeAccess.Proofs.Exchange
import AttributeAccess.Proofs.Registry.Resolution

/-!
# Axes as texts

An axis is written unless one of its names is empty or holds a surrogate (`Axis.encode_eq_ok`), and
its text is read as the axis itself, attribute by attribute in their order (`Axis.decode_encode`). A
host does not write this text: it describes the attributes by objects of its own, with the name and
a flag in place of the hint. `Describes` says which object describes which attribute; the text that
is made of a list of objects is that of the axis with the attributes described
(`Exchange.axis_eq_ok`).
-/

namespace AttributeAccess

/-! ## Written and read back -/

namespace Axis

variable {a : Axis} {t : Text}

theorem findSome?_badName?_eq_none_iff :
    (a.names ++ [a.name]).findSome? Reading.badName? = none ↔ a.Named := by
  simp only [List.findSome?_eq_none_iff, List.forall_mem_append, List.forall_mem_singleton,
    Reading.badName?_eq_none_iff]
  exact and_comm

theorem encode_eq_ok : a.encode = .ok t ↔ a.Named ∧ t = a.toJson.compact := by
  rw [← findSome?_badName?_eq_none_iff, encode]
  split <;> simp [*, eq_comm]

theorem encode_isError_iff :
    (∃ issues, a.encode = .error issues) ↔
      ∃ name ∈ a.name :: a.names, name = [] ∨ ¬ name.WellFormed := by
  have hnamed : a.Named ↔ ¬ ∃ name ∈ a.name :: a.names, name = [] ∨ ¬ name.WellFormed := by
    simp only [Named, List.exists_mem_cons_iff, not_or, not_exists, not_and, not_not, and_comm]
  rw [← not_iff_not, ← hnamed, ← findSome?_badName?_eq_none_iff, encode]
  split <;> simp [*]

theorem decode_encode (h : a.encode = .ok t) : decode (.text t) = .ok a := by
  obtain ⟨hnamed, rfl⟩ := encode_eq_ok.1 h
  exact decode_toJson hnamed

end Axis

namespace Exchange

/-! ## Attributes of the host -/

/-- What an object gives as the flag. The name that hosts use comes before the other one, and
nothing stands for false. -/
def flagGiven (fields : Reading.Fields) : Json :=
  ((fields.get? hybridizedKey).or (fields.get? hybridizedName)).getD (.bool false)

/-- An object that describes an attribute: it has a name, well-formed and not empty, and its flag
says whether the attribute is hybridized. Whatever else it has does not matter. -/
def Describes (v : Json) (p : Text × Hint) : Prop :=
  ∃ ms, v = .object ms ∧ (OrderedMap.ofList ms).get? "name".toText = some (.string p.1) ∧
    (p.1.WellFormed ∧ p.1 ≠ []) ∧ flagGiven (OrderedMap.ofList ms) = .bool p.2.isHybridized

theorem hybridized_eq_ok {fields : Reading.Fields} {flag : Bool} :
    hybridized fields = .ok flag ↔ flagGiven fields = .bool flag := by
  unfold hybridized flagGiven Reading.required Reading.optional OrderedMap.contains
  cases fields.get? hybridizedKey with
  | some v => simp [Reading.boolean_eq_ok]
  | none => cases fields.get? hybridizedName <;> simp [Reading.boolean_eq_ok]

theorem ofHybridized_eq_iff {flag : Bool} {h : Hint} :
    Hint.ofHybridized flag = h ↔ flag = h.isHybridized := by
  cases flag <;> cases h <;> decide

theorem property_eq_ok {v : Json} {p : Text × Hint} : property v = .ok p ↔ Describes v p := by
  unfold property
  rw [bind_eq_ok]
  simp only [Reading.fields_eq_ok, Reading.map_eq_ok, Reading.both_eq_ok, Reading.required_eq_ok,
    Reading.name_eq_ok, hybridized_eq_ok]
  constructor
  · rintro ⟨_, ⟨ms, rfl, rfl⟩, ⟨name, flag⟩, ⟨⟨_, hget, rfl, hname⟩, hflag⟩, rfl⟩
    exact ⟨ms, rfl, hget, hname, hflag.trans (congrArg _ (ofHybridized_eq_iff.1 rfl))⟩
  · rintro ⟨ms, rfl, hget, hname, hflag⟩
    exact ⟨_, ⟨ms, rfl, rfl⟩, (p.1, p.2.isHybridized), ⟨⟨_, hget, rfl, hname⟩, hflag⟩,
      Prod.ext rfl (ofHybridized_eq_iff.2 rfl)⟩

/-! ## Axes of the host -/

/-- The text made of a name, attributes and a flag is that of an axis with the name, with the
attributes described and with the flag. -/
theorem axis_eq_ok {name : Text} {items : List Json} {flag : Bool} {t : Text} :
    axis (.string name) (.array items) (.bool flag) = .ok t ↔
      (name.WellFormed ∧ name ≠ []) ∧ ∃ properties, List.Forall₂ Describes items properties ∧
        t = (Axis.toJson ⟨name, properties, flag⟩).compact := by
  unfold axis
  simp only [bind_eq_ok, orMisuse_eq_ok, orFault_eq_ok, orInvalid_eq_ok, mapError_eq_ok,
    mapM_eq_ok, property_eq_ok, Reading.both_eq_ok, Reading.under_eq_ok, Reading.name_eq_ok,
    Reading.boolean_eq_ok, Json.elements, Except.ok.injEq]
  constructor
  · rintro ⟨_, rfl, properties, hdescribed, ⟨name', flag'⟩, ⟨⟨hname, hne⟩, hflag⟩, rfl⟩
    cases hname
    cases hflag
    exact ⟨hne, properties, hdescribed, rfl⟩
  · rintro ⟨hne, properties, hdescribed, rfl⟩
    exact ⟨items, rfl, properties, hdescribed, (name, flag), ⟨⟨rfl, hne⟩, rfl⟩, rfl⟩

theorem named_of_described {name : Text} {items : List Json} {properties : List (Text × Hint)}
    {flag : Bool} (hname : name.WellFormed ∧ name ≠ [])
    (h : List.Forall₂ Describes items properties) : Axis.Named ⟨name, properties, flag⟩ := by
  refine ⟨hname, List.forall_mem_map.2 fun p hp => ?_⟩
  obtain ⟨v, -, ms, -, -, hp, -⟩ := exists_mem_of_forall₂ h hp
  exact hp

/-- Attributes are described where every object describes one. -/
theorem exists_described_iff {items : List Json} :
    (∃ properties, List.Forall₂ Describes items properties) ↔ ∀ v ∈ items, ∃ p, Describes v p := by
  induction items with
  | nil => simp
  | cons v items ih =>
    simp only [List.forall₂_cons_left_iff, List.forall_mem_cons, ← ih]
    constructor
    · rintro ⟨_, p, properties, hp, hrest, rfl⟩
      exact ⟨⟨p, hp⟩, properties, hrest⟩
    · rintro ⟨⟨p, hp⟩, properties, hrest⟩
      exact ⟨_, p, properties, hp, hrest, rfl⟩

/-- **Axes survive as texts.** An axis is refused by the writer exactly if its own name or that of
one of its attributes is empty or not well-formed; otherwise its text is read as the same axis. A
host gets a text for a name, a list and a flag exactly if the name is well-formed and not empty and
every value of the list describes an attribute; that text is read as the axis with the name, the
attributes described, in their order and hybridized where their flag is true, and the flag. -/
theorem axis_read_back (a : Axis) (items : List Json) :
    ((∃ issues, a.encode = .error issues) ↔
      ∃ name ∈ a.name :: a.names, name = [] ∨ ¬ name.WellFormed) ∧
    (∀ t, a.encode = .ok t → Axis.decode (.text t) = .ok a) ∧
    ((∃ t, axis (.string a.name) (.array items) (.bool a.hierarchical) = .ok t) ↔
      (a.name.WellFormed ∧ a.name ≠ []) ∧ ∀ v ∈ items, ∃ p, Describes v p) ∧
    (a.name.WellFormed ∧ a.name ≠ [] → List.Forall₂ Describes items a.properties →
      ∃ t, axis (.string a.name) (.array items) (.bool a.hierarchical) = .ok t ∧
        Axis.decode (.text t) = .ok a) := by
  refine ⟨Axis.encode_isError_iff, fun t => Axis.decode_encode, ?_, fun hname hdescribed => ?_⟩
  · simp only [axis_eq_ok, ← exists_described_iff]
    constructor
    · rintro ⟨t, hname, properties, hdescribed, -⟩
      exact ⟨hname, properties, hdescribed⟩
    · rintro ⟨hname, properties, hdescribed⟩
      exact ⟨_, hname, properties, hdescribed, rfl⟩
  · refine ⟨_, axis_eq_ok.2 ⟨hname, a.properties, hdescribed, rfl⟩, ?_⟩
    exact Axis.decode_encode (Axis.encode_eq_ok.2 ⟨named_of_described hname hdescribed, rfl⟩)

/-- Quotes, backslashes and control characters in the names, one name twice, a flag under either
name or none, and a member that says nothing. -/
theorem axis_read_back_escaped :
    let a : Axis := ⟨"\"A\\".toText,
      [("\n\x00".toText, .hybridized), ("é".toText, .classic), ("\n\x00".toText, .classic)], true⟩
    let items : List Json := [
      .object [("isHybridized".toText, .bool true), ("name".toText, .string "\n\x00".toText),
        ("is_hybridized".toText, .bool false)],
      .object [("name".toText, .string "é".toText), ("rank".toText, .null)],
      .object [("name".toText, .string "\n\x00".toText), ("is_hybridized".toText, .bool false)]]
    (∃ t, a.encode = .ok t ∧ Axis.decode (.text t) = .ok a) ∧
      ∃ t, axis (.string a.name) (.array items) (.bool true) = .ok t ∧
        Axis.decode (.text t) = .ok a := by
  intro a items
  obtain ⟨-, hback, -, hhost⟩ := axis_read_back a items
  have hdescribed : List.Forall₂ Describes items a.properties :=
    .cons ⟨_, rfl, rfl, by decide, rfl⟩ (.cons ⟨_, rfl, rfl, by decide, rfl⟩
      (.cons ⟨_, rfl, rfl, by decide, rfl⟩ .nil))
  have hnamed : a.Named := ⟨by decide, by decide⟩
  have hencode := Axis.encode_eq_ok.2 ⟨hnamed, rfl⟩
  exact ⟨⟨_, hencode, hback _ hencode⟩, hhost (by decide) hdescribed⟩

/-- The name is one surrogate: neither the writer nor the host's text takes it, though no name is
empty. -/
theorem axis_surrogate :
    let a : Axis := ⟨[.surrogate 0], [], false⟩
    let issues : List Issue := [⟨.notUnicode, [.key "name".toText]⟩]
    ¬ (a.name = [] ∨ [] ∈ a.names) ∧ a.encode = .error issues ∧
      axis (.string a.name) (.array []) (.bool false) = .error (.invalid issues) := by
  intro a issues
  exact ⟨by decide, rfl, rfl⟩

end Exchange

end AttributeAccess
