import AttributeAccess.Proofs.Expression.Layout

/-!
# Which policies are read again from their texts

The writer puts every operand that is no literal in parentheses and every operator between blanks,
but it writes literals as they are. `parse_toExpression_iff` says what this costs: a policy that was
read from some text is read again from its own text exactly if it is `Rereadable`.

Both directions follow the policy. For the one, what the passes leave of the text is again a text of
the policy's parts (`Settled`), and it shows the operator that the writer put there. For the other,
`rereadable_of_parse` is about the text with any of its blanks left out, since the reader passes
over the operands once more: behind a literal the operator is found no later than it was written
(`reread_behind_literal`), and in front of a group the parentheses are those of the writer, for two
layouts of a policy are the same (`reread_behind_group`).
-/

namespace AttributeAccess

open Expression

/-! ## Closing a group -/

namespace Expression

/-- The parenthesis behind the text closes the group in front of it. -/
def Enclosable (w : Text) : Prop :=
  closingFrom? 0 (w ++ [.char ')']) = some w.length

instance (w : Text) : Decidable (Enclosable w) :=
  inferInstanceAs (Decidable (_ = _))

/-- Whether the parenthesis behind a text closes the group in front of it depends neither on the
blanks in the text nor on what follows. -/
theorem closingFrom?_thinned {u t : Text} (h : Text.Thinned u t) (depth : Nat) (x y : Text) :
    closingFrom? depth (u ++ .char ')' :: x) = some u.length ↔
      closingFrom? depth (t ++ .char ')' :: y) = some t.length := by
  induction h generalizing depth with
  | nil =>
    cases depth with
    | zero => exact Iff.rfl
    | succ depth => simp [closingFrom?]
  | @keep u t c h ih =>
    rw [List.cons_append, List.cons_append, List.length_cons, List.length_cons]
    by_cases hopen : c = .char '('
    · rw [hopen, closingFrom?_opening, closingFrom?_opening, map_succ_eq_some_iff,
        map_succ_eq_some_iff]
      exact ih _
    · by_cases hclose : c = .char ')'
      · subst hclose
        cases depth with
        | zero => simp [closingFrom?]
        | succ depth =>
          show (closingFrom? depth _).map (· + 1) = _ ↔ (closingFrom? depth _).map (· + 1) = _
          rw [map_succ_eq_some_iff, map_succ_eq_some_iff]
          exact ih depth
      · rw [closingFrom?_other hopen hclose, closingFrom?_other hopen hclose,
          map_succ_eq_some_iff, map_succ_eq_some_iff]
        exact ih depth
  | @drop u t c hc h ih =>
    have hopen : c ≠ .char '(' := by
      rintro rfl
      cases hc
    have hclose : c ≠ .char ')' := by
      rintro rfl
      cases hc
    rw [List.cons_append, closingFrom?_other hopen hclose, List.length_cons, map_succ_eq_some_iff]
    exact ih depth

theorem enclosable_iff {u t : Text} (h : Text.Thinned u t) (x : Text) :
    closingFrom? 0 (u ++ .char ')' :: x) = some u.length ↔ Enclosable t :=
  closingFrom?_thinned h 0 x []

end Expression

/-! ## The condition -/

namespace AccessPolicy

/-- A literal, or a policy whose text may stand in parentheses. -/
def Enclosed (p : AccessPolicy) : Prop :=
  (∃ a, p = .attr a) ∨ ∃ text, p.toExpression = .ok text ∧ Enclosable text

/-- The text of an operation is read as the operation of its operands: the operator does not start
inside a literal in front of it, and the parentheses around an operand enclose it. -/
structure Distinct (op : Operator) (l r : AccessPolicy) : Prop where
  separate : ∀ a, l = .attr a → a.name.getLast? ≠ some op.mark.char
  left : l.Enclosed
  right : r.Enclosed

/-- What holds of every operation in a policy. -/
def Throughout (P : Operator → AccessPolicy → AccessPolicy → Prop) : AccessPolicy → Prop
  | all | attr _ => True
  | and l r => P .and l r ∧ l.Throughout P ∧ r.Throughout P
  | or l r => P .or l r ∧ l.Throughout P ∧ r.Throughout P

theorem throughout_tree {P : Operator → AccessPolicy → AccessPolicy → Prop} {op : Operator}
    {l r : AccessPolicy} :
    (op.tree l r).Throughout P ↔ P op l r ∧ l.Throughout P ∧ r.Throughout P := by
  cases op <;> exact Iff.rfl

/-- What a policy must be like for its text to be read as the policy. -/
structure Rereadable (p : AccessPolicy) : Prop where
  trimmed : ∀ a ∈ p.literals, a.axis.EndsSolid
  distinct : p.Throughout Distinct

theorem rereadable_tree {op : Operator} {l r : AccessPolicy} :
    (op.tree l r).Rereadable ↔ Distinct op l r ∧ l.Rereadable ∧ r.Rereadable := by
  constructor
  · intro h
    obtain ⟨hdistinct, hl, hr⟩ := throughout_tree.1 h.distinct
    obtain ⟨htl, htr⟩ := forall_mem_literals_tree.1 h.trimmed
    exact ⟨hdistinct, ⟨htl, hl⟩, htr, hr⟩
  · rintro ⟨hdistinct, hl, hr⟩
    exact ⟨forall_mem_literals_tree.2 ⟨hl.trimmed, hr.trimmed⟩,
      throughout_tree.2 ⟨hdistinct, hl.distinct, hr.distinct⟩⟩

end AccessPolicy

open AccessPolicy

namespace Expression

/-! ## What is read again meets the condition -/

theorem length_le_of_parse_attr {u : Text} {a : Attribute} (h : parse u = .ok (.attr a)) :
    a.text.length ≤ u.length := by
  refine parse_induction (P := fun t p => ∀ a, p = .attr a → a.text.length ≤ t.length)
    ?_ ?_ ?_ h a rfl
  · rintro t a hs _ ⟨⟩
    rw [← (shape_literal_iff.1 hs).1]
    exact length_withoutBlanks_le t
  · intro t inner p hs _ ih a ha
    have hlen : inner.length < t.length := below_of_shape hs
    exact Nat.le_trans (ih a ha) (Nat.le_of_lt hlen)
  · intro t left right op l r _ _ _ _ _ a ha
    exact absurd ha (tree_ne_attr op l r a)

theorem head?_ne_of_thinned {u t : Text} (h : Text.Thinned u t) (ht : t.StartsSolid)
    (hhead : t.head? ≠ some (.char '(')) : (withoutBlanks u).head? ≠ some (.char '(') := by
  rwa [((thinned_withoutBlanks u).trans h).head?_eq ht]

theorem rereadable_literal {a : Attribute} (ha : a.Expressible) {u : Text}
    (hu : Text.Thinned u a.text) (h : parse u = .ok (.attr a)) : a.axis.EndsSolid := by
  have hw := head?_ne_of_thinned hu ha.startsSolid_text ha.head?_text
  rcases parse_of_head_ne hw h with ⟨b, hs, hb⟩ | ⟨op, left, right, l, r, -, -, -, -, htree⟩
  · cases hb
    have htight := (shape_literal_iff.1 hs).1
    have hself : u = a.text := by
      refine hu.eq_of_length_le ?_
      rw [← htight]
      exact length_withoutBlanks_le u
    rw [hself] at htight
    exact ha.withoutBlanks_text_iff.1 htight
  · exact absurd htree.symm (tree_ne_attr op l r a)

theorem thinned_group_inv {v t : Text} (h : Text.Thinned v (.char '(' :: (t ++ [.char ')']))) :
    ∃ w, v = .char '(' :: (w ++ [.char ')']) ∧ Text.Thinned w t := by
  cases h with
  | keep _ h =>
    obtain ⟨w, e, rfl, hw, he⟩ := h.append_inv
    have hself := he.eq_of_forall Mark.closing.isBlank_of_mem
    exact ⟨w, by rw [hself], hw⟩
  | drop hc _ => cases hc

theorem thinned_spaced_inv {op : Operator} {u l r : Text}
    (h : Text.Thinned u (l ++ (([.char ' '] ++ op.mark.text) ++ ([.char ' '] ++ r)))) :
    ∃ v g g' w, u = v ++ (g ++ (op.mark.text ++ (g' ++ w))) ∧ Text.Thinned v l ∧ g.AllBlank ∧
      g'.AllBlank ∧ Text.Thinned w r := by
  have hblank : Text.AllBlank [.char ' '] := by decide
  obtain ⟨v, u, rfl, hv, h⟩ := h.append_inv
  obtain ⟨front, back, rfl, hfront, hback⟩ := h.append_inv
  obtain ⟨g, o, rfl, hg, ho⟩ := hfront.append_inv
  obtain ⟨g', w, rfl, hg', hw⟩ := hback.append_inv
  rw [ho.eq_of_forall op.mark.isBlank_of_mem]
  exact ⟨v, g, g', w, by simp only [List.append_assoc], hv, hg.allBlank hblank,
    hg'.allBlank hblank, hw⟩

/-- An operand that was read again in its parentheses is enclosed by them. -/
theorem rereadable_operand {p : AccessPolicy} (hp : ∀ a ∈ p.literals, a.Expressible)
    {text u : Text} (htext : p.toExpression = .ok text)
    (ih : ∀ {w}, Text.Thinned w text → parse w = .ok p → p.Rereadable)
    (hu : Text.Thinned u (p.operandText text)) (h : parse u = .ok p) :
    p.Rereadable ∧ p.Enclosed := by
  by_cases hattr : ∃ a, p = .attr a
  · obtain ⟨a, rfl⟩ := hattr
    exact ⟨ih hu h, .inl ⟨a, rfl⟩⟩
  rw [operandText_of_ne (not_exists.1 hattr)] at hu
  obtain ⟨w, hw, hthin⟩ := thinned_group_inv ((thinned_withoutBlanks u).trans hu)
  rcases parse_of_opening hw h with ⟨left, hleft, hclosing, hp'⟩ |
    ⟨op, left, right, l, r, hsplit, -, hl, -, rfl⟩
  · obtain rfl := List.append_cancel_right hleft
    exact ⟨ih hthin hp', .inr ⟨text, htext, (enclosable_iff hthin []).1 hclosing⟩⟩
  · -- the left operand of a reading would stand in one pair of parentheses less
    obtain ⟨lt, rt, hlt, -, rfl⟩ := toExpression_tree_inv htext
    have hvisible := hthin.visible_eq
    rw [visible_spaced] at hvisible
    have hread : Text.visible (.char '(' :: (w ++ [.char ')'])) =
        .char '(' :: (left.visible ++ [.char ')']) ++ (op.mark.text ++ right.visible) := by
      rw [hsplit, visible_group_operation]
    rw [visible_group, hvisible] at hread
    have hlead := @lead_unique op l (forall_mem_literals_tree.1 hp).1 _ _ _ _ 1 0
      (layout_operandText (layout_toExpression hlt)) (layout_of_parse hl).group
      (by simpa using hread)
    exact absurd hlead.1 Nat.one_ne_zero

/-- Behind a text that ends with a character of the operator the first operator is found before its
end. -/
theorem exists_operatorPosition?_lt {op : Operator} {w : Text}
    (hw : w.getLast? = some op.mark.char) (t : Text) :
    ∃ n < w.length, operatorPosition? (w ++ (op.mark.text ++ t)) = some n := by
  obtain ⟨v, rfl⟩ := List.getLast?_eq_some_iff.1 hw
  obtain ⟨n, hn, hposition⟩ := exists_operatorPosition?_le op v (op.mark.char :: t)
  refine ⟨n, ?_, ?_⟩
  · rw [List.length_append]
    exact Nat.lt_succ_of_le hn
  · rw [← hposition]
    congr 1
    cases op <;> simp [Operator.mark, Mark.text, Mark.char, orMark, andMark]

variable {op : Operator} {l r : AccessPolicy}

/-- Where at most the text of the attribute stands in front of an operator, a first operator that
is no earlier than behind that text is this one. -/
theorem first_operator {a : Attribute} {t left right v w : Text}
    (hposition : operatorPosition? t = some left.length) (hlen : a.text.length ≤ left.length)
    (ht : t = left ++ (op.mark.text ++ right)) (hv : Text.Thinned v a.text)
    (hself : t = v ++ (op.mark.text ++ w)) :
    v.getLast? ≠ some op.mark.char ∧ v = a.text ∧ left = a.text ∧ right = w := by
  obtain ⟨n, hn, hfound⟩ := exists_operatorPosition?_le op v w
  rw [List.append_assoc, ← hself, hposition] at hfound
  obtain rfl := Option.some.inj hfound
  have hsame : v = a.text := hv.eq_of_length_le (Nat.le_trans hlen hn)
  subst hsame
  obtain ⟨rfl, hrest⟩ := List.append_inj (ht.symm.trans hself) (Nat.le_antisymm hn hlen)
  refine ⟨fun hlast => ?_, rfl, rfl, List.append_cancel_left hrest⟩
  obtain ⟨k, hk, hfound⟩ := exists_operatorPosition?_lt hlast w
  rw [← hself, hposition] at hfound
  cases hfound
  exact absurd hk (Nat.lt_irrefl _)

/-- An operation whose left operand is a literal is read again only where its operator is found
behind the literal. -/
theorem reread_behind_literal {a : Attribute} (ha : a.Expressible) {u rt : Text}
    (hrt : rt.StartsSolid)
    (hu : Text.Thinned u (a.text ++ (([.char ' '] ++ op.mark.text) ++ ([.char ' '] ++ rt))))
    (h : parse u = .ok (op.tree (.attr a) r)) :
    a.axis.EndsSolid ∧ a.name.getLast? ≠ some op.mark.char ∧
      ∃ w, Text.Thinned w rt ∧ parse w = .ok r := by
  have hhead : (withoutBlanks u).head? ≠ some (.char '(') := by
    refine head?_ne_of_thinned hu ?_ (ha.head?_text_append _)
    exact Text.startsSolid_append ha.startsSolid_text fun hnil => absurd hnil ha.text_ne_nil
  obtain ⟨b, -, hb⟩ | ⟨op', left, right, l', r', ht, hposition, hl, hr, htree⟩ :=
    parse_of_head_ne hhead h
  · exact absurd hb (tree_ne_attr op _ r b)
  obtain ⟨rfl, rfl, rfl⟩ := tree_injective htree
  have hlen := length_le_of_parse_attr hl
  obtain ⟨v, g, g', w, rfl, hv, hg, hg', hw⟩ := thinned_spaced_inv hu
  by_cases hj : v.getLast? = some op.mark.char → g ≠ []
  · have haround := withoutBlanks_around (hv.endsSolid ha.endsSolid_text) (hw.startsSolid hrt)
      hg hg' hj
    obtain ⟨hend, hsame, hleft, hright⟩ := first_operator hposition hlen ht
      ((thinned_withoutBlanks v).trans hv) haround
    rw [hsame, ha.getLast?_text] at hend
    rw [hleft] at hl
    rw [hright] at hr
    exact ⟨rereadable_literal ha (.refl _) hl, hend, _, (thinned_withoutBlanks w).trans hw, hr⟩
  · -- the last character of the literal and the first one of the operator are an operator
    obtain ⟨hlast, hnil⟩ := Classical.not_imp.1 hj
    obtain rfl := not_not.1 hnil
    have hthin := thinned_withoutBlanks (v ++ (op.mark.text ++ (g' ++ w)))
    obtain ⟨v', t, htight, hv', ht'⟩ := hthin.append_inv
    obtain ⟨o, w', rfl, ho, -⟩ := ht'.append_inv
    rw [ho.eq_of_forall op.mark.isBlank_of_mem] at htight
    obtain ⟨hend, -⟩ := first_operator hposition hlen ht (hv'.trans hv) htight
    rw [hv'.getLast?_eq (hv.endsSolid ha.endsSolid_text)] at hend
    exact absurd hlast hend

theorem withoutBlanks_behind_group {u lt rt : Text} (hrt : rt.StartsSolid)
    (hu : Text.Thinned u (.char '(' :: (lt ++ [.char ')']) ++
      (([.char ' '] ++ op.mark.text) ++ ([.char ' '] ++ rt)))) :
    ∃ v w, withoutBlanks u = .char '(' :: (v ++ .char ')' :: (op.mark.text ++ w)) ∧
      Text.Thinned v lt ∧
      Text.Thinned w rt := by
  obtain ⟨v, g, g', w, rfl, hv, hg, hg', hw⟩ := thinned_spaced_inv hu
  have hgroup : Text.EndsSolid (.char '(' :: (lt ++ [.char ')'])) :=
    (Mark.opening.solid.append Mark.closing.solid lt).endsSolid
  have hend : v.getLast? ≠ some op.mark.char := by
    rw [hv.getLast?_eq hgroup, ← List.cons_append, List.getLast?_concat]
    cases op <;> decide
  have haround := withoutBlanks_around (hv.endsSolid hgroup) (hw.startsSolid hrt) hg hg'
    fun hlast => absurd hlast hend
  obtain ⟨inside, hinside, hthin⟩ := thinned_group_inv ((thinned_withoutBlanks v).trans hv)
  refine ⟨inside, _, ?_, hthin, (thinned_withoutBlanks w).trans hw⟩
  rw [haround, hinside]
  simp

/-- An operation whose left operand stands in parentheses is read again only where those enclose
it. -/
theorem reread_behind_group (hp : ∀ a ∈ l.literals, a.Expressible) {u lt rt : Text}
    (hlt : l.toExpression = .ok lt) (hrt : rt.StartsSolid)
    (hu : Text.Thinned u (.char '(' :: (lt ++ [.char ')']) ++
      (([.char ' '] ++ op.mark.text) ++ ([.char ' '] ++ rt))))
    (h : parse u = .ok (op.tree l r)) :
    Enclosable lt ∧ (∃ v, Text.Thinned v lt ∧ parse v = .ok l) ∧
      ∃ w, Text.Thinned w rt ∧ parse w = .ok r := by
  obtain ⟨v, w, hself, hv, hw⟩ := withoutBlanks_behind_group hrt hu
  have hlayout : Layout l (.char '(' :: (Text.visible v ++ [.char ')'])) := by
    rw [hv.visible_eq]
    exact (layout_toExpression hlt).group
  have hwritten := visible_group_operation op v w
  rcases parse_of_opening hself h with ⟨left, hleft, -, hp'⟩ |
    ⟨op', left, right, l', r', hsplit, hclosing, hl, hr, htree⟩
  · -- the left operand of a reading would stand in one pair of parentheses more
    obtain ⟨m, s, x, hs, hlead⟩ := exists_lead hp'
    rw [hleft, visible_group, hlead] at hwritten
    have hmore := @lead_unique op l hp _ _ (x ++ [.char ')']) _ (m + 1) 0 hs hlayout
      (by simpa [List.replicate_succ] using hwritten)
    exact absurd hmore.1 (Nat.succ_ne_zero m)
  · obtain ⟨rfl, rfl, rfl⟩ := tree_injective htree
    rw [hsplit, visible_group_operation] at hwritten
    have hsame := @lead_unique op l hp _ _ _ _ 0 0 (layout_of_parse hl).group hlayout hwritten
    have hleft : left = v := Text.eq_of_visible_eq (show isBlank (.char ')') = false by decide)
      hsplit.symm (List.append_cancel_right (List.cons.inj hsame.2).2)
    subst hleft
    have hright : w = right :=
      List.append_cancel_left (List.cons.inj (List.append_cancel_left hsplit)).2
    rw [← hright] at hr
    exact ⟨(enclosable_iff hv _).1 hclosing, ⟨left, hv, hl⟩, w, hw, hr⟩

theorem solid_operandText {p : AccessPolicy} (hp : ∀ a ∈ p.literals, a.Expressible) {text : Text}
    (htext : p.toExpression = .ok text) : (p.operandText text).Solid := by
  by_cases hattr : ∃ a, p = .attr a
  · obtain ⟨a, rfl⟩ := hattr
    cases htext
    exact (hp a (List.mem_singleton_self a)).solid_text
  · rw [operandText_of_ne (not_exists.1 hattr)]
    exact Mark.opening.solid.append Mark.closing.solid text

theorem solid_toExpression {p : AccessPolicy} (hp : ∀ a ∈ p.literals, a.Expressible) {text : Text}
    (htext : p.toExpression = .ok text) : text.Solid := by
  induction p using tree_induction generalizing text with
  | all => cases htext
  | attr a =>
    cases htext
    exact (hp a (List.mem_singleton_self a)).solid_text
  | tree op l r _ _ =>
    obtain ⟨lt, rt, hlt, hrt, rfl⟩ := toExpression_tree_inv htext
    obtain ⟨hpl, hpr⟩ := forall_mem_literals_tree.1 hp
    have hl := solid_operandText hpl hlt
    have hr := solid_operandText hpr hrt
    have hsolid := hl.append hr ([.char ' '] ++ op.mark.text ++ [.char ' '])
    simpa only [List.append_assoc] using hsolid

/-- A policy that was read from its text with some blanks left out. -/
theorem rereadable_of_parse {p : AccessPolicy} (hp : ∀ a ∈ p.literals, a.Expressible)
    {text u : Text} (htext : p.toExpression = .ok text) (hu : Text.Thinned u text)
    (h : parse u = .ok p) : p.Rereadable := by
  induction p using tree_induction generalizing text u with
  | all => cases htext
  | attr a =>
    cases htext
    have ha := rereadable_literal (hp a (List.mem_singleton_self a)) hu h
    exact ⟨fun b hb => List.mem_singleton.1 hb ▸ ha, trivial⟩
  | tree op l r ihl ihr =>
    obtain ⟨hpl, hpr⟩ := forall_mem_literals_tree.1 hp
    obtain ⟨lt, rt, hlt, hrt, rfl⟩ := toExpression_tree_inv htext
    have hsolid := (solid_operandText hpr hrt).startsSolid
    rw [rereadable_tree]
    by_cases hattr : ∃ a, l = .attr a
    · obtain ⟨a, rfl⟩ := hattr
      have ha := hpl a (List.mem_singleton_self a)
      cases hlt
      obtain ⟨haxis, hend, w, hw, hr⟩ := reread_behind_literal ha hsolid hu h
      obtain ⟨hright, henclosed⟩ := rereadable_operand hpr hrt (ihr hpr hrt) hw hr
      refine ⟨⟨fun b hb => ?_, .inl ⟨a, rfl⟩, henclosed⟩, ⟨fun b hb => ?_, trivial⟩, hright⟩
      · cases hb
        exact hend
      · exact List.mem_singleton.1 hb ▸ haxis
    · rw [operandText_of_ne (not_exists.1 hattr)] at hu
      obtain ⟨hclosing, ⟨v, hv, hl⟩, w, hw, hr⟩ := reread_behind_group hpl hlt hsolid hu h
      obtain ⟨hright, henclosed⟩ := rereadable_operand hpr hrt (ihr hpr hrt) hw hr
      exact ⟨⟨fun b hb => absurd ⟨b, hb⟩ hattr, .inr ⟨lt, hlt, hclosing⟩, henclosed⟩,
        ihl hpl hlt hv hl, hright⟩

/-! ## What meets the condition is read again -/

/-- The text is read as the policy, and the passes leave it alone once they are done. -/
structure Settled (p : AccessPolicy) (text : Text) : Prop where
  parse_eq : parse text = .ok p
  tight : withoutBlanks (withoutBlanks text) = withoutBlanks text

theorem Settled.parse_withoutBlanks {p : AccessPolicy} {text : Text} (h : Settled p text) :
    parse (withoutBlanks text) = .ok p :=
  (parse_congr h.tight).2 h.parse_eq

theorem Settled.separator_infix {p : AccessPolicy} {text : Text} (h : Settled p text) :
    Attribute.separator <:+: withoutBlanks text := by
  obtain ⟨s, hs⟩ := exists_shape_of_parse h.parse_eq
  exact (shapeOf_eq_ok_iff.1 hs).1

theorem settled_group {p : AccessPolicy} {text : Text} (h : Settled p text) (hsolid : text.Solid)
    (hclosing : Enclosable text) : Settled p (.char '(' :: (text ++ [.char ')'])) := by
  have htight := withoutBlanks_group hsolid.startsSolid hsolid.endsSolid
  refine ⟨(parse_group ?_).2 h.parse_withoutBlanks, ?_⟩
  · have hself := (enclosable_iff (thinned_withoutBlanks text) []).2 hclosing
    unfold shape
    rw [htight]
    refine shapeOf_eq_ok_iff.2 ⟨?_, .group hself⟩
    exact h.separator_infix.trans ⟨[.char '('], [.char ')'], by simp⟩
  · rw [htight, withoutBlanks_group (startsSolid_withoutBlanks text)
      (endsSolid_withoutBlanks text), h.tight]

theorem settled_operand {p : AccessPolicy} {text : Text} (htext : p.toExpression = .ok text)
    (h : Settled p text) (hsolid : text.Solid) (hp : p.Enclosed) :
    Settled p (p.operandText text) := by
  rcases hp with ⟨a, rfl⟩ | ⟨text', htext', hclosing⟩
  · exact h
  · rw [htext] at htext'
    obtain rfl := Except.ok.inj htext'
    by_cases hattr : ∃ a, p = .attr a
    · obtain ⟨a, rfl⟩ := hattr
      exact h
    · rw [operandText_of_ne (not_exists.1 hattr)]
      exact settled_group h hsolid hclosing

/-- The passes over two texts around an operator. -/
theorem withoutBlanks_spaced_operation {u v : Text} (hu : u.Solid) (hv : v.Solid) :
    withoutBlanks (u ++ (([.char ' '] ++ op.mark.text) ++ ([.char ' '] ++ v))) =
      withoutBlanks u ++ (op.mark.text ++ withoutBlanks v) := by
  have hblank : Text.AllBlank [.char ' '] := by decide
  have haround :=
    @withoutBlanks_around op.mark u [.char ' '] [.char ' '] v hu.endsSolid hv.startsSolid
    hblank hblank fun _ => List.cons_ne_nil _ _
  simpa only [List.append_assoc] using haround

theorem tight_operation {u v : Text} (hu : u.Solid) (hlast : u.getLast? ≠ some op.mark.char)
    (htu : withoutBlanks (withoutBlanks u) = withoutBlanks u)
    (htv : withoutBlanks (withoutBlanks v) = withoutBlanks v) :
    withoutBlanks (withoutBlanks u ++ (op.mark.text ++ withoutBlanks v)) =
      withoutBlanks u ++ (op.mark.text ++ withoutBlanks v) := by
  have hend : (withoutBlanks u).getLast? ≠ some op.mark.char := by
    rwa [(thinned_withoutBlanks u).getLast?_eq hu.endsSolid]
  have haround := @withoutBlanks_around op.mark (withoutBlanks u) [] [] (withoutBlanks v)
    (endsSolid_withoutBlanks u) (startsSolid_withoutBlanks v) Text.allBlank_nil Text.allBlank_nil
    fun h => absurd h hend
  rwa [List.nil_append, List.nil_append, htu, htv] at haround

/-- The sanitised text of an operation shows its operator behind the left operand. -/
theorem shape_operation {u v : Text} (hu : u.Solid) (hv : v.Solid) {left : Text}
    (hsep : Attribute.separator <:+: withoutBlanks u)
    (hshows : Shows (withoutBlanks u ++ (op.mark.text ++ withoutBlanks v))
      (.operation left op.mark.text (withoutBlanks v))) :
    shape (u ++ (([.char ' '] ++ op.mark.text) ++ ([.char ' '] ++ v))) =
      .ok (.operation left op.mark.text (withoutBlanks v)) := by
  unfold shape
  rw [withoutBlanks_spaced_operation hu hv]
  exact shapeOf_eq_ok_iff.2 ⟨hsep.trans (List.prefix_append _ _).isInfix, hshows⟩

theorem settled_literal {a : Attribute} (ha : a.Expressible) (he : a.axis.EndsSolid) :
    Settled (.attr a) a.text := by
  have htight := ha.withoutBlanks_text_iff.2 he
  refine ⟨parse_literal (shape_literal_iff.2 ⟨htight, ha.head?_text, ha.operatorPosition?_text,
    ha.representable⟩), ?_⟩
  rw [htight, htight]

theorem settled_behind_literal {a : Attribute} (ha : a.Expressible) (he : a.axis.EndsSolid)
    (hend : a.name.getLast? ≠ some op.mark.char) {v : Text} (hv : v.Solid) (hr : Settled r v) :
    Settled (op.tree (.attr a) r)
      (a.text ++ (([.char ' '] ++ op.mark.text) ++ ([.char ' '] ++ v))) := by
  have hl := settled_literal ha he
  have htight := ha.withoutBlanks_text_iff.2 he
  have hclear : ∀ op' : Operator,
      Text.Clear op'.mark.text a.text (op.mark.text ++ withoutBlanks v) := by
    intro op'
    refine ha.clear_operator fun hlast hhead => hend ?_
    rw [op.mark.head?_append] at hhead
    rw [hlast, Option.some.inj hhead]
  have hshows : Shows (withoutBlanks a.text ++ (op.mark.text ++ withoutBlanks v))
      (.operation a.text op.mark.text (withoutBlanks v)) := by
    rw [htight]
    exact .operation (ha.head?_text_append _) (operatorPosition?_append hclear)
  refine ⟨parse_operation (shape_operation ha.solid_text hv hl.separator_infix hshows) hl.parse_eq
    hr.parse_withoutBlanks, ?_⟩
  rw [withoutBlanks_spaced_operation ha.solid_text hv]
  refine tight_operation ha.solid_text ?_ hl.tight hr.tight
  rwa [ha.getLast?_text]

theorem settled_behind_group {lt : Text} (hl : Settled l lt) (hsolid : lt.Solid)
    (hclosing : Enclosable lt) {v : Text} (hv : v.Solid) (hr : Settled r v) :
    Settled (op.tree l r)
      (.char '(' :: (lt ++ [.char ')']) ++
        (([.char ' '] ++ op.mark.text) ++ ([.char ' '] ++ v))) := by
  have hgroup := settled_group hl hsolid hclosing
  have hsolid' : Text.Solid (.char '(' :: (lt ++ [.char ')'])) :=
    Mark.opening.solid.append Mark.closing.solid lt
  have hshows : Shows (withoutBlanks (.char '(' :: (lt ++ [.char ')'])) ++
      (op.mark.text ++ withoutBlanks v))
      (.operation (withoutBlanks lt) op.mark.text (withoutBlanks v)) := by
    rw [withoutBlanks_group hsolid.startsSolid hsolid.endsSolid, List.cons_append,
      List.append_assoc]
    exact .of_group_operation op ((enclosable_iff (thinned_withoutBlanks lt) _).2 hclosing)
  refine ⟨parse_operation (shape_operation hsolid' hv hgroup.separator_infix hshows)
    hl.parse_withoutBlanks hr.parse_withoutBlanks, ?_⟩
  rw [withoutBlanks_spaced_operation hsolid' hv]
  refine tight_operation hsolid' (fun hlast => ?_) hgroup.tight hr.tight
  rw [← List.cons_append, List.getLast?_concat] at hlast
  cases op <;> cases hlast

theorem settled_of_rereadable {p : AccessPolicy} (hp : ∀ a ∈ p.literals, a.Expressible)
    {text : Text} (htext : p.toExpression = .ok text) (h : p.Rereadable) : Settled p text := by
  induction p using tree_induction generalizing text with
  | all => cases htext
  | attr a =>
    cases htext
    have ha : a ∈ (AccessPolicy.attr a).literals := List.mem_singleton_self a
    exact settled_literal (hp a ha) (h.trimmed a ha)
  | tree op l r ihl ihr =>
    obtain ⟨hpl, hpr⟩ := forall_mem_literals_tree.1 hp
    obtain ⟨lt, rt, hlt, hrt, rfl⟩ := toExpression_tree_inv htext
    obtain ⟨hdistinct, hl, hr⟩ := rereadable_tree.1 h
    have hright := settled_operand hrt (ihr hpr hrt hr) (solid_toExpression hpr hrt) hdistinct.right
    have hsolid := solid_operandText hpr hrt
    by_cases hattr : ∃ a, l = .attr a
    · obtain ⟨a, rfl⟩ := hattr
      cases hlt
      exact settled_behind_literal (hpl a (List.mem_singleton_self a))
        (hl.trimmed a (List.mem_singleton_self a)) (hdistinct.separate a rfl) hsolid hright
    · rw [operandText_of_ne (not_exists.1 hattr)]
      obtain ⟨lt', hlt', hclosing⟩ := hdistinct.left.resolve_left hattr
      rw [hlt] at hlt'
      obtain rfl := Except.ok.inj hlt'
      exact settled_behind_group (ihl hpl hlt hl) (solid_toExpression hpl hlt) hclosing hsolid
        hright

theorem exists_toExpression {t : Text} {p : AccessPolicy} (h : parse t = .ok p) :
    ∃ text, p.toExpression = .ok text := by
  refine parse_induction (P := fun _ p => ∃ text, p.toExpression = .ok text) ?_ ?_ ?_ h
  · intro t a _
    exact ⟨a.text, rfl⟩
  · intro _ _ _ _ _ ih
    exact ih
  · rintro t left right op l r - - - ⟨lt, hlt⟩ ⟨rt, hrt⟩
    exact ⟨_, toExpression_tree op hlt hrt⟩

/-- **Which policies are read again.** Every policy that was read from some text has a text; that is
read as the policy exactly if no axis ends with a blank, no operator follows a literal whose name
ends with a character of the operator, and the text of every operand that is an operation closes
the parentheses that it opens and no others. -/
theorem parse_toExpression_iff {t : Text} {p : AccessPolicy} (h : parse t = .ok p) :
    ∃ text, p.toExpression = .ok text ∧ (parse text = .ok p ↔ p.Rereadable) := by
  have hp := expressible_of_parse h
  obtain ⟨text, htext⟩ := exists_toExpression h
  exact ⟨text, htext, rereadable_of_parse hp htext (.refl text),
    fun hr => (settled_of_rereadable hp htext hr).parse_eq⟩

/-- Parentheses in two names close each other within the parentheses around both. -/
theorem parse_toExpression_iff_parentheses :
    let p : AccessPolicy :=
      .and (.or (.attr ⟨"A".toText, "b(".toText⟩) (.attr ⟨"C".toText, "d)".toText⟩))
        (.attr ⟨"E".toText, "f".toText⟩)
    parse "( A::b( ||C::d ))&& E :: f".toText = .ok p ∧ p.Rereadable ∧
      ∃ text, p.toExpression = .ok text ∧ parse text = .ok p := by
  intro p
  have hb : parse "A::b(".toText = .ok (.attr ⟨"A".toText, "b(".toText⟩) := parse_literal rfl
  have hd : parse "C::d)".toText = .ok (.attr ⟨"C".toText, "d)".toText⟩) := parse_literal rfl
  have hf : parse "E::f".toText = .ok (.attr ⟨"E".toText, "f".toText⟩) := parse_literal rfl
  have hor : parse "A::b(||C::d)".toText =
      .ok (.or (.attr ⟨"A".toText, "b(".toText⟩) (.attr ⟨"C".toText, "d)".toText⟩)) :=
    @parse_operation _ _ _ .or _ _ rfl hb hd
  have hparse : parse "( A::b( ||C::d ))&& E :: f".toText = .ok p :=
    @parse_operation _ _ _ .and _ _ rfl hor hf
  have hread : p.Rereadable := by
    refine ⟨by decide, ⟨nofun, .inr ⟨"A::b( || C::d)".toText, rfl, by decide⟩, .inl ⟨_, rfl⟩⟩,
      ⟨⟨?_, .inl ⟨_, rfl⟩, .inl ⟨_, rfl⟩⟩, trivial, trivial⟩, trivial⟩
    rintro a ⟨⟩
    decide
  obtain ⟨text, htext, hiff⟩ := parse_toExpression_iff hparse
  exact ⟨hparse, hread, text, htext, hiff.2 hread⟩

/-- Without the parentheses that it was read from, a name that ends with a single `&` loses it to
the operator, and the rest of the operator goes into the next axis. -/
theorem parse_toExpression_ne :
    let p : AccessPolicy :=
      .and (.attr ⟨"A".toText, "b&".toText⟩) (.attr ⟨"C".toText, "d".toText⟩)
    parse "(A::b&) && C::d".toText = .ok p ∧ p.toExpression = .ok "A::b& && C::d".toText ∧
      parse "A::b& && C::d".toText =
        .ok (.and (.attr ⟨"A".toText, "b".toText⟩) (.attr ⟨"&C".toText, "d".toText⟩)) := by
  intro p
  have hb : parse "A::b&".toText = .ok (.attr ⟨"A".toText, "b&".toText⟩) := parse_literal rfl
  have hd : parse "C::d".toText = .ok (.attr ⟨"C".toText, "d".toText⟩) := parse_literal rfl
  have hb' : parse "A::b".toText = .ok (.attr ⟨"A".toText, "b".toText⟩) := parse_literal rfl
  have hd' : parse "&C::d".toText = .ok (.attr ⟨"&C".toText, "d".toText⟩) := parse_literal rfl
  have hparse : parse "(A::b&) && C::d".toText = .ok p := @parse_operation _ _ _ .and _ _ rfl hb hd
  exact ⟨hparse, rfl, @parse_operation _ _ _ .and _ _ rfl hb' hd'⟩

end Expression

end AttributeAccess
