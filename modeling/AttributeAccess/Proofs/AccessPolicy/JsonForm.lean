import AttributeAccess.AccessPolicy.JsonForm
import AttributeAccess.Proofs.Expression.Literals
import AttributeAccess.Proofs.Json.WellFormed

/-!
# The JSON form is one to one

A policy has one JSON form, and a JSON value is accepted exactly if it is the form of some policy
whose literals are representable (`ofJson_eq_ok_iff`). Literals are what may be lost on the way: each
is written as one text, and a text is read as the one attribute that is representable by it. The
texts of expressions have no others to offer, so every policy that was read can be written and read
again (`json_form_one_to_one`).
-/

namespace AttributeAccess

namespace AccessPolicy

/-- Each literal is read back from its text. -/
def Representable (t : AccessPolicy) : Prop :=
  ∀ a ∈ t.literals, a.Representable

instance (t : AccessPolicy) : Decidable t.Representable :=
  inferInstanceAs (Decidable (∀ _ ∈ _, _))

variable {l r t : AccessPolicy}

theorem representable_attr {a : Attribute} : (attr a).Representable ↔ a.Representable :=
  List.forall_mem_singleton

theorem representable_and : (and l r).Representable ↔ l.Representable ∧ r.Representable :=
  List.forall_mem_append

theorem representable_or : (or l r).Representable ↔ l.Representable ∧ r.Representable :=
  List.forall_mem_append

/-! ## Values -/

theorem operands_eq_ok {x y : Except Fault AccessPolicy}
    {f : AccessPolicy → AccessPolicy → AccessPolicy} :
    (do let l ← x; let r ← y; .ok (f l r)) = .ok t ↔
      ∃ l r, x = .ok l ∧ y = .ok r ∧ f l r = t := by
  cases x <;> cases y <;> simp [bind, Except.bind]

theorem ofJson_toJson (h : t.Representable) : ofJson t.toJson = .ok t := by
  induction t with
  | all => rfl
  | attr a =>
    rw [toJson, ofJson, if_pos rfl, Attribute.ofText_eq_ok_iff.2 ⟨rfl, representable_attr.1 h⟩]
    rfl
  | and l r ihl ihr =>
    rw [representable_and] at h
    rw [toJson, ofJson, if_neg (by decide), if_pos (by decide)]
    exact operands_eq_ok.2 ⟨l, r, ihl h.1, ihr h.2, rfl⟩
  | or l r ihl ihr =>
    rw [representable_or] at h
    rw [toJson, ofJson, if_neg (by decide), if_pos (by decide)]
    exact operands_eq_ok.2 ⟨l, r, ihl h.1, ihr h.2, rfl⟩

theorem eq_toJson_of_ofJson {v : Json} (h : ofJson v = .ok t) :
    v = t.toJson ∧ t.Representable := by
  fun_induction ofJson v generalizing t with
  | case1 s =>
    cases ha : Attribute.ofText s with
    | error f =>
      rw [ha] at h
      cases h
    | ok a =>
      rw [ha] at h
      cases h
      obtain ⟨rfl, hrep⟩ := Attribute.ofText_eq_ok_iff.1 ha
      exact ⟨rfl, representable_attr.2 hrep⟩
  | case3 tag hattr htag l r ihl ihr =>
    obtain ⟨l', r', hl, hr, rfl⟩ := operands_eq_ok.1 h
    obtain ⟨rfl, hlrep⟩ := ihl hl
    obtain ⟨rfl, hrrep⟩ := ihr hr
    rcases htag with rfl | rfl
    · exact ⟨rfl, representable_and.2 ⟨hlrep, hrrep⟩⟩
    · exact ⟨rfl, representable_or.2 ⟨hlrep, hrrep⟩⟩
  | case6 =>
    cases h
    exact ⟨rfl, List.forall_mem_nil _⟩
  -- what is left are the refusals
  | case2 | case4 | case5 | case7 | case8 => cases h

/-- A value is accepted exactly if it is the form of a policy whose literals are representable. -/
theorem ofJson_eq_ok_iff {v : Json} : ofJson v = .ok t ↔ v = t.toJson ∧ t.Representable := by
  refine ⟨eq_toJson_of_ofJson, ?_⟩
  rintro ⟨rfl, h⟩
  exact ofJson_toJson h

/-! ## Texts -/

theorem height_pos (t : AccessPolicy) : 1 ≤ t.height := by
  cases t <;> simp [height]

theorem readable_operands {depth : Nat} {tag : Text} {l r : Json} (hl : Json.Readable depth l)
    (hr : Json.Readable depth r) : Json.Readable (depth + 2) (.object [(tag, .array [l, r])]) := by
  refine .object (List.forall_mem_singleton.2 (.array ?_))
  simp only [List.forall_mem_cons, List.not_mem_nil, false_imp_iff, implies_true, and_true]
  exact ⟨hl, hr⟩

/-- A connective nests its operands in an array and an object, a literal its text in an object. -/
theorem readable_toJson {depth : Nat} (h : 2 * t.height ≤ depth + 1) :
    Json.Readable depth t.toJson := by
  induction t generalizing depth with
  | all => exact .string _
  | attr a =>
    rw [height] at h
    obtain ⟨depth, rfl⟩ : ∃ n, depth = n + 1 := ⟨depth - 1, by omega⟩
    exact .object (List.forall_mem_singleton.2 (.string _))
  | and l r ihl ihr | or l r ihl ihr =>
    have hpos := l.height_pos
    rw [height] at h
    obtain ⟨depth, rfl⟩ : ∃ n, depth = n + 2 := ⟨depth - 2, by omega⟩
    exact readable_operands (ihl (by omega)) (ihr (by omega))

theorem wellFormed_toJson (h : ∀ a ∈ t.literals, a.text.WellFormed) : t.toJson.WellFormed := by
  have hobject : ∀ {tag : Text} {v : Json}, tag.WellFormed → v.WellFormed →
      (Json.object [(tag, v)]).WellFormed := fun htag hv =>
    .object (List.forall_mem_singleton.2 htag) (List.forall_mem_singleton.2 hv)
  induction t with
  | all => exact .string (by decide)
  | attr a => exact hobject (by decide) (.string (h a List.mem_cons_self))
  | and l r ihl ihr | or l r ihl ihr =>
    obtain ⟨hl, hr⟩ := List.forall_mem_append.1 h
    refine hobject (by decide) (.array ?_)
    exact List.forall_mem_cons.2 ⟨ihl hl, List.forall_mem_singleton.2 (ihr hr)⟩

/-- No node repeats a name. -/
theorem withoutRepeats_toJson (t : AccessPolicy) : t.toJson.withoutRepeats = t.toJson := by
  induction t with
  | all | attr a => rfl
  | and l r ihl ihr | or l r ihl ihr =>
    simp only [toJson, Json.withoutRepeats, Json.membersWithoutRepeats, Json.itemsWithoutRepeats,
      ihl, ihr]
    rfl

/-- The text starts with a quote or a brace, never with a byte order mark. -/
theorem readUnmarked_toJson (manner : Json.Manner) (t : AccessPolicy) :
    Json.readUnmarked manner t.toJson.compact = Json.read manner t.toJson.compact := by
  cases t <;> rfl

theorem readOpen_toJson {limit : Nat} (h : 2 * t.height ≤ limit + 1) :
    (Payload.text t.toJson.compact).readOpen limit = .ok t.toJson := by
  have hread : Json.read ⟨false, limit⟩ t.toJson.compact = .ok t.toJson :=
    Json.read_compact (readable_toJson h) (Nat.le_refl limit)
  rw [Payload.readOpen, readUnmarked_toJson, hread]
  show Except.ok t.toJson.withoutRepeats = _
  rw [withoutRepeats_toJson]

theorem decodeWithin_eq_ok_iff {limit : Nat} {p : Payload} :
    decodeWithin limit p = .ok t ↔ p.readOpen limit = .ok t.toJson ∧ t.Representable := by
  unfold decodeWithin
  cases p.readOpen limit with
  | error f => simp
  | ok v => simp [ofJson_eq_ok_iff]

theorem representable_of_parse {e : Text} (h : Expression.parse e = .ok t) : t.Representable :=
  fun a ha => (Expression.expressible_of_parse h a ha).representable

/-- **The JSON form is one to one on the policies whose literals are representable.** Reading takes
exactly their forms, and gives the policy whose form it took. A policy within the limits on nesting
is written, and the text is read as that policy under the same condition. Expressions give no other
policies, and neither do JSON texts, of which each is read as the form that it holds. -/
theorem json_form_one_to_one :
    (∀ v t, ofJson v = .ok t ↔ v = t.toJson ∧ t.Representable) ∧
    (∀ (t : AccessPolicy) writing reading, t.height ≤ writing → 2 * t.height ≤ reading + 1 →
      ∃ text, t.encodeWithin writing = .ok text ∧
        (decodeWithin reading (.text text) = .ok t ↔ t.Representable)) ∧
    (∀ e t, Expression.parse e = .ok t ∨ ofExpression e = .ok t → t.Representable) ∧
    ∀ limit p t, decodeWithin limit p = .ok t ↔
      p.readOpen limit = .ok t.toJson ∧ t.Representable := by
  refine ⟨fun v t => ofJson_eq_ok_iff, fun t writing reading hwriting hreading => ?_, ?_,
    fun limit p t => decodeWithin_eq_ok_iff⟩
  · refine ⟨t.toJson.compact, if_pos hwriting, ?_⟩
    rw [decodeWithin_eq_ok_iff, readOpen_toJson hreading]
    simp
  · rintro e t (h | h)
    · exact representable_of_parse h
    · exact representable_of_parse (Expression.parse_of_parseWithin h)

/-- A policy with quotes, line ends and `all` comes back as it was. One literal of an axis that ends
with a colon is enough, and it does not. -/
theorem json_form_one_to_one_colons :
    let t := and (or (attr ⟨"\"É".toText, "x\n😀".toText⟩) all) (attr ⟨"A".toText, ":b".toText⟩)
    let s := and t (attr ⟨"A:".toText, "b".toText⟩)
    (∃ text, t.encode = .ok text ∧ decode (.text text) = .ok t) ∧
      ∃ text, s.encode = .ok text ∧ decode (.text text) ≠ .ok s := by
  intro t s
  obtain ⟨-, hlimits, -, -⟩ := json_form_one_to_one
  obtain ⟨text, htext, hback⟩ := hlimits t nestingLimit nestingLimit (by decide) (by decide)
  obtain ⟨other, hother, hlost⟩ := hlimits s nestingLimit nestingLimit (by decide) (by decide)
  exact ⟨⟨text, htext, hback.2 (by decide)⟩, other, hother, mt hlost.1 (by decide)⟩

end AccessPolicy

end AttributeAccess
