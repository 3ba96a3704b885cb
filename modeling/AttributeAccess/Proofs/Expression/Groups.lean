import AttributeAccess.Proofs.Expression.Shape

/-!
# Where a group ends, and what follows it

The search for the end of a group counts the groups that are open. What it finds can be said without
counting along: `ClosesAt t i` compares how many parentheses of either kind stand in front of `i`,
and in front of any place before it. At the place that was found an expression is taken apart
without loss (`closing_and_cutAt_exact`): only a single character behind the group is refused.
-/

namespace AttributeAccess.Expression

/-! ## The end of a group -/

/-- With `depth` groups open in front of it, the text closes all that are open, and at no place
before more than that. -/
def ClosesAll (depth : Nat) (w : Text) : Prop :=
  w.count (.char ')') = w.count (.char '(') + depth ∧
    ∀ v, v <+: w → v.count (.char ')') ≤ v.count (.char '(') + depth

theorem closesAll_nil {depth : Nat} : ClosesAll depth [] ↔ depth = 0 := by
  constructor
  · rintro ⟨hcount, -⟩
    simpa using hcount.symm
  · rintro rfl
    exact ⟨rfl, fun v hv => by rw [List.prefix_nil.1 hv]; exact Nat.le_refl _⟩

/-- The texts in front of a place behind the first character are the empty one and those that
start with it. -/
theorem forall_prefix_cons {c : CodePoint} {w : Text} {P : Text → Prop} :
    (∀ v, v <+: c :: w → P v) ↔ P [] ∧ ∀ v, v <+: w → P (c :: v) := by
  constructor
  · intro h
    exact ⟨h [] List.nil_prefix, fun v hv => h _ (List.cons_prefix_cons.2 ⟨rfl, hv⟩)⟩
  · rintro ⟨hnil, hcons⟩ v hv
    rcases List.prefix_cons_iff.1 hv with rfl | ⟨u, rfl, hu⟩
    · exact hnil
    · exact hcons u hu

theorem closesAll_opening {depth : Nat} {w : Text} :
    ClosesAll depth (.char '(' :: w) ↔ ClosesAll (depth + 1) w := by
  unfold ClosesAll
  rw [forall_prefix_cons]
  simp [Nat.add_right_comm, Nat.add_assoc]

theorem closesAll_closing {depth : Nat} {w : Text} :
    ClosesAll (depth + 1) (.char ')' :: w) ↔ ClosesAll depth w := by
  unfold ClosesAll
  rw [forall_prefix_cons]
  simp [← Nat.add_assoc]

theorem not_closesAll_closing (w : Text) : ¬ ClosesAll 0 (.char ')' :: w) := by
  rintro ⟨-, hprefix⟩
  have hfirst := hprefix [.char ')'] (List.cons_prefix_cons.2 ⟨rfl, List.nil_prefix⟩)
  simp at hfirst

theorem closesAll_other {c : CodePoint} (hopen : c ≠ .char '(') (hclose : c ≠ .char ')')
    {depth : Nat} {w : Text} :
    ClosesAll depth (c :: w) ↔ ClosesAll depth w := by
  unfold ClosesAll
  rw [forall_prefix_cons]
  simp [hopen, hclose]

/-- The parenthesis that is found stands behind a text that closes all groups that are open. -/
theorem closingFrom?_eq_length_iff {depth : Nat} {w rest : Text} :
    closingFrom? depth (w ++ .char ')' :: rest) = some w.length ↔ ClosesAll depth w := by
  induction w generalizing depth with
  | nil =>
    rw [closesAll_nil]
    cases depth with
    | zero => simp [closingFrom?]
    | succ depth => simp [closingFrom?]
  | cons c w ih =>
    rw [List.cons_append, List.length_cons]
    by_cases hopen : c = .char '('
    · rw [hopen, closingFrom?_opening, map_succ_eq_some_iff, ih, closesAll_opening]
    · by_cases hclose : c = .char ')'
      · subst hclose
        cases depth with
        | zero => simp [closingFrom?, not_closesAll_closing]
        | succ depth =>
          show (closingFrom? depth _).map (· + 1) = _ ↔ _
          rw [map_succ_eq_some_iff, ih, closesAll_closing]
      · rw [closingFrom?_other hopen hclose, map_succ_eq_some_iff, ih,
          closesAll_other hopen hclose]

/-- The parenthesis at `i` closes the group in front of the text: as many are opened as closed in
front of it, and nowhere before are more closed than opened. -/
structure ClosesAt (t : Text) (i : Nat) : Prop where
  closing : t[i]? = some (.char ')')
  balanced : (t.take i).count (.char '(') = (t.take i).count (.char ')')
  within : ∀ w, w <+: t.take i → w.count (.char ')') ≤ w.count (.char '(')

theorem closesAt_append_iff {w rest : Text} :
    ClosesAt (w ++ .char ')' :: rest) w.length ↔ ClosesAll 0 w := by
  constructor
  · rintro ⟨-, hbalanced, hwithin⟩
    rw [List.take_left] at hbalanced hwithin
    exact ⟨hbalanced.symm, hwithin⟩
  · rintro ⟨hcount, hprefix⟩
    refine ⟨by simp, ?_, ?_⟩
    · rw [List.take_left]
      exact hcount.symm
    · rw [List.take_left]
      exact hprefix

theorem ClosesAt.eq_append {t : Text} {i : Nat} (h : ClosesAt t i) :
    ∃ w rest, t = w ++ .char ')' :: rest ∧ w.length = i := by
  obtain ⟨hlt, hget⟩ := List.getElem?_eq_some_iff.1 h.closing
  refine ⟨t.take i, t.drop (i + 1), ?_, by rw [List.length_take]; omega⟩
  rw [← hget, ← List.drop_eq_getElem_cons hlt, List.take_append_drop]

theorem closing_eq_ok_iff {t : Text} {i : Nat} : closing t = .ok i ↔ ClosesAt t i := by
  have hfound : closing t = .ok i ↔ closingFrom? 0 t = some i := by
    unfold closing
    cases closingFrom? 0 t <;> simp
  rw [hfound]
  constructor
  · intro h
    obtain ⟨w, rest, rfl, rfl⟩ := eq_append_of_closingFrom? h
    exact closesAt_append_iff.2 (closingFrom?_eq_length_iff.1 h)
  · intro h
    obtain ⟨w, rest, rfl, rfl⟩ := h.eq_append
    exact closingFrom?_eq_length_iff.2 (closesAt_append_iff.1 h)

theorem closing_eq_error_iff {t : Text} {f : Fault} :
    closing t = .error f ↔ f = .expression (.closingUnmatched t) ∧ ∀ i, ¬ ClosesAt t i := by
  simp only [← closing_eq_ok_iff]
  unfold closing
  cases closingFrom? 0 t <;> simp [eq_comm]

/-! ## Taking an expression apart behind a group -/

theorem cutAt_closing_end (w : Text) : cutAt (w ++ [.char ')']) w.length = .ok ⟨w, none⟩ :=
  cutAt_closing_append w []

theorem cutAt_closing_single (w : Text) (c : CodePoint) :
    cutAt (w ++ [.char ')', c]) w.length =
      .error (.expression (.operatorBeyondEnd (w ++ [.char ')', c]) (w.length + 3))) :=
  cutAt_closing_append w [c]

theorem cutAt_closing_operator (w : Text) (a b : CodePoint) (right : Text) :
    cutAt (w ++ .char ')' :: a :: b :: right) w.length = .ok ⟨w, some ⟨[a, b], right⟩⟩ :=
  cutAt_closing_append w (a :: b :: right)

/-- **Groups are taken out exactly.** The place that is found is the one where the group closes, and
a text is refused exactly if there is none. At that place the text is cut into what stands before
the parenthesis, the two characters behind it and all the rest, or into the part before it alone if
it is the last character; it is refused exactly if a single character follows. -/
theorem closing_and_cutAt_exact (t : Text) :
    (∀ i, closing t = .ok i ↔ ClosesAt t i) ∧
      (∀ f, closing t = .error f ↔
        f = .expression (.closingUnmatched t) ∧ ∀ i, ¬ ClosesAt t i) ∧
      ∀ i, closing t = .ok i →
        (i + 1 = t.length → cutAt t i = .ok ⟨t.take i, none⟩) ∧
        (i + 3 ≤ t.length → ∃ operator right, operator.length = 2 ∧
          t = t.take i ++ [.char ')'] ++ operator ++ right ∧
          cutAt t i = .ok ⟨t.take i, some ⟨operator, right⟩⟩) ∧
        ∀ f, cutAt t i = .error f ↔
          f = .expression (.operatorBeyondEnd t (i + 3)) ∧ i + 2 = t.length := by
  refine ⟨fun i => closing_eq_ok_iff, fun f => closing_eq_error_iff, fun i h => ?_⟩
  obtain ⟨w, rest, rfl, rfl⟩ := (closing_eq_ok_iff.1 h).eq_append
  rw [List.take_left, List.length_append, List.length_cons]
  match rest with
  | [] =>
    rw [cutAt_closing_end]
    refine ⟨fun _ => rfl, fun hlen => ?_, fun f => ?_⟩
    · simp at hlen
    · simp
  | [c] =>
    rw [cutAt_closing_single]
    refine ⟨fun hlen => ?_, fun hlen => ?_, fun f => ?_⟩
    · simp at hlen
    · simp at hlen
    · simp [eq_comm]
  | a :: b :: right =>
    rw [cutAt_closing_operator]
    refine ⟨fun hlen => ?_, fun _ => ⟨[a, b], right, rfl, by simp, rfl⟩, fun f => ?_⟩
    · simp at hlen
    · simp

/-- The depth goes up and down before the group closes; a single character behind it is refused. -/
theorem closing_and_cutAt_exact_nested :
    let group : Text := "A::b&&((C::d)||E::f))".toText
    let operation : Text := group ++ "&&G::h".toText
    let short : Text := group ++ [.char '&']
    let refusal : Fault := .expression (.operatorBeyondEnd short 23)
    ClosesAt operation 20 ∧ ClosesAt short 20 ∧
      cutAt group 20 = .ok ⟨group.take 20, none⟩ ∧
      (∃ operator right, operator.length = 2 ∧
        operation = operation.take 20 ++ [.char ')'] ++ operator ++ right ∧
        cutAt operation 20 = .ok ⟨operation.take 20, some ⟨operator, right⟩⟩) ∧
      cutAt short 20 = .error refusal := by
  intro group operation short refusal
  obtain ⟨-, -, hgroup⟩ := closing_and_cutAt_exact group
  obtain ⟨hcloses, -, hoperation⟩ := closing_and_cutAt_exact operation
  obtain ⟨hcloses', -, hshort⟩ := closing_and_cutAt_exact short
  exact ⟨(hcloses 20).1 rfl, (hcloses' 20).1 rfl, (hgroup 20 rfl).1 rfl,
    (hoperation 20 rfl).2.1 (by decide), ((hshort 20 rfl).2.2 refusal).2 ⟨rfl, rfl⟩⟩

end AttributeAccess.Expression
