import AttributeAccess.Proofs.Except
import AttributeAccess.Proofs.Expression.Passes
import AttributeAccess.Proofs.Expression.Shape
import AttributeAccess.Proofs.Text.Digits

/-!
# Where a fault was found

Reading looks at one part of a text after another, and all parts stand in the text
(`inside_of_shape`). So a text is refused for what stands in one of its parts, which the fault shows
(`Located`), or for an operator that was taken out of it (`located_of_parse`). Whatever is said of
a text is made of the text: only a text with surrogates is refused with a message that has them
(`wellFormed_message`).
-/

namespace AttributeAccess.Expression

/-! ## Parts -/

/-- The parts of a shape stand in a text. -/
def Shape.Inside (t : Text) : Shape → Prop
  | literal a => a.text ⊆ t
  | group inner => inner ⊆ t
  | operation left operator right => left ⊆ t ∧ operator ⊆ t ∧ right ⊆ t

theorem Shape.Inside.mono {s : Shape} {t u : Text} (h : s.Inside t) (htu : t ⊆ u) : s.Inside u := by
  cases s with
  | literal => exact List.Subset.trans h htu
  | group => exact List.Subset.trans h htu
  | operation =>
    obtain ⟨hleft, hoperator, hright⟩ := h
    exact ⟨List.Subset.trans hleft htu, List.Subset.trans hoperator htu,
      List.Subset.trans hright htu⟩

theorem Shows.inside {t : Text} {s : Shape} (h : Shows t s) : s.Inside t := by
  cases h with
  | literal => exact List.Subset.refl _
  | operation => simp [Shape.Inside]
  | group => simp [Shape.Inside]
  | groupOperation =>
    refine ⟨by simp, by simp, fun c hc => ?_⟩
    simp [hc]

theorem inside_of_shape {t : Text} {s : Shape} (h : shape t = .ok s) : s.Inside t :=
  (shapeOf_eq_ok_iff.1 h).2.inside.mono (thinned_withoutBlanks t).subset

/-! ## One level -/

/-- The fault shows the text that was refused, and says nothing that is not in the whole text. -/
structure Located (whole : Text) (f : Fault) : Prop where
  shown : ∃ cause e, f = .expression cause ∧ cause.expression? = some e
  wellFormed : whole.WellFormed → f.message.WellFormed

theorem Located.mono {t u : Text} {f : Fault} (h : Located t f) (htu : t ⊆ u) : Located u f :=
  ⟨h.shown, fun hu => h.wellFormed (hu.of_subset htu)⟩

@[simp] theorem wellFormed_expressionExample : expressionExample.WellFormed :=
  Text.wellFormed_toText _

section
variable {t rest : Text} {position : Nat} {f : Fault}

theorem located_of_literal (h : literal t = .error f) : Located t f := by
  unfold literal at h
  split at h <;> cases h
  exact ⟨⟨_, _, rfl, rfl⟩, fun ht => by simp [Fault.message, ExpressionFault.reason, ht]⟩

theorem located_of_closing (h : closing t = .error f) : Located t f := by
  unfold closing at h
  split at h <;> cases h
  exact ⟨⟨_, _, rfl, rfl⟩, fun ht => by simp [Fault.message, ExpressionFault.reason, ht]⟩

theorem located_of_continueAt (h : continueAt t position rest = .error f) : Located t f := by
  unfold continueAt at h
  split at h <;> cases h
  exact ⟨⟨_, _, rfl, rfl⟩, fun ht => by simp [Fault.message, ExpressionFault.reason, ht]⟩

theorem located_of_cutAt (h : cutAt t position = .error f) : Located t f := by
  unfold cutAt at h
  split at h
  · cases h
    exact ⟨⟨_, _, rfl, rfl⟩, fun ht => by simp [Fault.message, ExpressionFault.reason, ht]⟩
  · replace h := map_eq_error.1 h
    split at h
    · exact located_of_continueAt h
    · exact located_of_continueAt h

theorem located_of_shapeOf (h : shapeOf t = .error f) : Located t f := by
  unfold shapeOf at h
  split at h
  · cases h
    exact ⟨⟨_, _, rfl, rfl⟩, fun ht => by simp [Fault.message, ExpressionFault.reason, ht]⟩
  · split at h
    · next inner _ =>
      have hinner : inner ⊆ .char '(' :: inner := List.subset_cons_self _ inner
      split at h
      · cases h
        refine ⟨⟨_, _, rfl, rfl⟩, fun ht => ?_⟩
        simp [Fault.message, ExpressionFault.reason, ht.of_subset hinner]
      · rcases bind_eq_error.1 h with hclosing | ⟨position, -, h⟩
        · exact (located_of_closing hclosing).mono hinner
        rcases bind_eq_error.1 h with hcut | ⟨parts, -, h⟩
        · exact (located_of_cutAt hcut).mono hinner
        · cases h
    · split at h
      · exact located_of_literal (map_eq_error.1 h)
      · exact located_of_cutAt (map_eq_error.1 h)

theorem located_of_shape (h : shape t = .error f) : Located t f :=
  (located_of_shapeOf h).mono (thinned_withoutBlanks t).subset

end

/-! ## All levels -/

/-- An operator is looked at behind both of its operands. -/
theorem descend_eq {shape : Text → Except Fault Shape}
    {below : ∀ {t s}, shape t = .ok s → s.Below t.length} (t : Text) :
    descend shape below t = match shape t with
      | .error f => .error f
      | .ok (.literal a) => .ok (.attr a)
      | .ok (.group inner) => descend shape below inner
      | .ok (.operation left operator right) =>
        (descend shape below left).bind fun l =>
          (descend shape below right).bind fun r => connect operator l r := by
  rw [descend]
  split
  · next hs => simp only [hs]
  · next hs => simp only [hs]
  · next hs => simp only [hs]
  · next left operator right hs =>
    simp only [hs]
    cases descend shape below left with
    | error f => rfl
    | ok l => cases descend shape below right <;> rfl

theorem connect_eq_error {operator : Text} {l r : AccessPolicy} {f : Fault}
    (h : connect operator l r = .error f) : f = .unsupportedOperator operator := by
  unfold connect at h
  split at h
  · cases h
  · split at h <;> cases h
    rfl

/-- A text is refused for what stands in one of its parts or for an unknown operator in it. -/
theorem located_of_parse {t : Text} {f : Fault} (h : parse t = .error f) :
    Located t f ∨ ∃ operator, f = .unsupportedOperator operator ∧ operator ⊆ t := by
  induction hlen : t.length using Nat.strongRecOn generalizing t with
  | _ k ih =>
    subst hlen
    -- what a part is refused for, the whole text is refused for
    have hpart : ∀ {part : Text}, part.length < t.length → part ⊆ t → parse part = .error f →
        Located t f ∨ ∃ operator, f = .unsupportedOperator operator ∧ operator ⊆ t := by
      intro part hlt hsub hpart
      rcases ih _ hlt hpart rfl with hlocated | ⟨operator, rfl, hoperator⟩
      · exact .inl (hlocated.mono hsub)
      · exact .inr ⟨operator, rfl, List.Subset.trans hoperator hsub⟩
    unfold parse at h
    rw [descend_eq] at h
    cases hs : shape t with
    | error g =>
      rw [hs] at h
      cases h
      exact .inl (located_of_shape hs)
    | ok s =>
      have hbelow := below_of_shape hs
      have hinside := inside_of_shape hs
      rw [hs] at h
      cases s with
      | literal a => cases h
      | group inner => exact hpart hbelow hinside h
      | operation left operator right =>
        rcases bind_eq_error.1 h with hleft | ⟨l, -, h⟩
        · exact hpart hbelow.1 hinside.1 hleft
        rcases bind_eq_error.1 h with hright | ⟨r, -, h⟩
        · exact hpart hbelow.2 hinside.2.2 hright
        · exact .inr ⟨operator, connect_eq_error h, hinside.2.1⟩

/-- Only a text with surrogates is refused with a message that has them. -/
theorem wellFormed_message {t : Text} {f : Fault} (ht : t.WellFormed) (h : parse t = .error f) :
    f.message.WellFormed := by
  rcases located_of_parse h with hlocated | ⟨operator, rfl, hoperator⟩
  · exact hlocated.wellFormed ht
  · simp [Fault.message, ht.of_subset hoperator]

end AttributeAccess.Expression
