import AttributeAccess.Proofs.Expression.Nesting
import AttributeAccess.Proofs.Expression.Shape

/-!
# Expressions are read by the grammar

`parse_eq_ok` says what a successful reading is, level by level. With it every text of the grammar
reads as the tree of its derivation (`Derives.parse_spaced`), and reading with a bound on the
nesting gives the same tree once the bound exceeds twice the length (`parseWithin_of_parse`). What
holds of every reading is shown by `parse_induction`, whether or not the text is of the grammar.
-/

namespace AttributeAccess.Expression

/-! ## One level -/

theorem parse_eq_ok {t : Text} {p : AccessPolicy} :
    parse t = .ok p ↔
      (∃ a, shape t = .ok (.literal a) ∧ p = .attr a) ∨
      (∃ inner, shape t = .ok (.group inner) ∧ parse inner = .ok p) ∨
      ∃ left operator right l r, shape t = .ok (.operation left operator right) ∧
        parse left = .ok l ∧ parse right = .ok r ∧ connect operator l r = .ok p := by
  unfold parse
  rw [descend]
  split
  · next fault hs => simp [hs]
  · next a hs => simp [hs, eq_comm]
  · next inner hs => simp [hs]
  · next left operator right hs =>
    cases hl : descend shape below_of_shape left with
    | error fault => simp [hs, hl]
    | ok l =>
      cases hr : descend shape below_of_shape right with
      | error fault => simp [hs, hr]
      | ok r => simp [hs, hl, hr]

/-- Reading does not see the blanks that the passes leave out. -/
theorem parse_congr {t u : Text} (h : withoutBlanks t = withoutBlanks u) {p : AccessPolicy} :
    parse t = .ok p ↔ parse u = .ok p := by
  have hshape : shape t = shape u := congrArg shapeOf h
  rw [parse_eq_ok, parse_eq_ok, hshape]

theorem exists_shape_of_parse {t : Text} {p : AccessPolicy} (h : parse t = .ok p) :
    ∃ s, shape t = .ok s := by
  rcases parse_eq_ok.1 h with ⟨a, hs, -⟩ | ⟨inner, hs, -⟩ | ⟨left, operator, right, l, r, hs, -⟩
  · exact ⟨_, hs⟩
  · exact ⟨_, hs⟩
  · exact ⟨_, hs⟩

theorem parse_literal {t : Text} {a : Attribute} (h : shape t = .ok (.literal a)) :
    parse t = .ok (.attr a) :=
  parse_eq_ok.2 (.inl ⟨a, h, rfl⟩)

theorem parse_group {t inner : Text} (h : shape t = .ok (.group inner)) {p : AccessPolicy} :
    parse t = .ok p ↔ parse inner = .ok p := by
  rw [parse_eq_ok, h]
  simp

theorem connect_mark (op : Operator) (l r : AccessPolicy) :
    connect op.mark.text l r = .ok (op.tree l r) := by
  cases op <;> rfl

theorem connect_eq_ok {operator : Text} {l r p : AccessPolicy} (h : connect operator l r = .ok p) :
    ∃ op : Operator, operator = op.mark.text ∧ p = op.tree l r := by
  unfold connect at h
  split at h
  · next hand =>
    cases h
    exact ⟨.and, hand, rfl⟩
  · split at h
    · next hor =>
      cases h
      exact ⟨.or, hor, rfl⟩
    · cases h

theorem parse_operation {t left right : Text} {op : Operator} {l r : AccessPolicy}
    (h : shape t = .ok (.operation left op.mark.text right)) (hl : parse left = .ok l)
    (hr : parse right = .ok r) : parse t = .ok (op.tree l r) :=
  parse_eq_ok.2 (.inr (.inr ⟨left, op.mark.text, right, l, r, h, hl, hr, connect_mark op l r⟩))

/-- What a successful reading shows at the outermost level. -/
theorem shows_of_shape {t : Text} {s : Shape} (h : shape t = .ok s) : Shows (withoutBlanks t) s :=
  (shapeOf_eq_ok_iff.1 h).2

/-- Without a parenthesis in front, a text is read as a literal or cut at its first operator. -/
theorem parse_of_head_ne {t : Text} {p : AccessPolicy}
    (hhead : (withoutBlanks t).head? ≠ some (.char '('))
    (h : parse t = .ok p) :
    (∃ a, shape t = .ok (.literal a) ∧ p = .attr a) ∨
    ∃ (op : Operator) (left right : Text) (l r : AccessPolicy),
      withoutBlanks t = left ++ (op.mark.text ++ right) ∧
      operatorPosition? (withoutBlanks t) = some left.length ∧
      parse left = .ok l ∧ parse right = .ok r ∧ p = op.tree l r := by
  rcases parse_eq_ok.1 h with hliteral | ⟨inner, hs, -⟩ |
    ⟨left, operator, right, l, r, hs, hl, hr, hc⟩
  · exact .inl hliteral
  · have hshows := shows_of_shape hs
    generalize withoutBlanks t = w at hshows hhead
    cases hshows
    exact absurd rfl hhead
  · obtain ⟨op, rfl, rfl⟩ := connect_eq_ok hc
    obtain ⟨ht, -, hposition⟩ | ⟨ht, -⟩ := (shows_of_shape hs).operation_inv
    · exact .inr ⟨op, left, right, l, r, ht, hposition, hl, hr, rfl⟩
    · rw [ht] at hhead
      exact absurd rfl hhead

/-- With a parenthesis in front, a text is read as the group that it opens, alone or in front of an
operator. -/
theorem parse_of_opening {t inner : Text} {p : AccessPolicy}
    (hopen : withoutBlanks t = .char '(' :: inner) (h : parse t = .ok p) :
    (∃ left, inner = left ++ [.char ')'] ∧ closingFrom? 0 inner = some left.length ∧
      parse left = .ok p) ∨
    ∃ (op : Operator) (left right : Text) (l r : AccessPolicy),
      inner = left ++ .char ')' :: (op.mark.text ++ right) ∧
      closingFrom? 0 inner = some left.length ∧
      parse left = .ok l ∧ parse right = .ok r ∧ p = op.tree l r := by
  rcases parse_eq_ok.1 h with ⟨a, hs, -⟩ | ⟨left, hs, hp⟩ |
    ⟨left, operator, right, l, r, hs, hl, hr, hc⟩
  · have hshows := shows_of_shape hs
    rw [hopen] at hshows
    generalize hw : .char '(' :: inner = w at hshows
    cases hshows with
    | literal hhead =>
      rw [← hw] at hhead
      exact absurd rfl hhead
  · have hshows := shows_of_shape hs
    rw [hopen] at hshows
    generalize hw : .char '(' :: inner = w at hshows
    cases hshows with
    | group hclosing =>
      obtain rfl := (List.cons.inj hw).2
      exact .inl ⟨left, rfl, hclosing, hp⟩
  · obtain ⟨op, rfl, rfl⟩ := connect_eq_ok hc
    obtain ⟨ht, hhead, -⟩ | ⟨ht, hclosing⟩ := (shows_of_shape hs).operation_inv
    · rw [hopen] at hhead
      exact absurd rfl hhead
    · obtain rfl := (List.cons.inj (hopen.symm.trans ht)).2
      exact .inr ⟨op, left, right, l, r, rfl, hclosing, hl, hr, rfl⟩

/-- What holds of a text and its tree when it holds of the texts inside and their trees. -/
theorem parse_induction {P : Text → AccessPolicy → Prop}
    (literal : ∀ t a, shape t = .ok (.literal a) → P t (.attr a))
    (group : ∀ t inner p, shape t = .ok (.group inner) → parse inner = .ok p → P inner p → P t p)
    (operation : ∀ t left right (op : Operator) l r,
      shape t = .ok (.operation left op.mark.text right) → parse left = .ok l →
      parse right = .ok r → P left l → P right r → P t (op.tree l r))
    {t : Text} {p : AccessPolicy} (h : parse t = .ok p) : P t p := by
  induction hn : t.length using Nat.strong_induction_on generalizing t p with
  | _ n ih =>
    rcases parse_eq_ok.1 h with ⟨a, hs, rfl⟩ | ⟨inner, hs, hp⟩ |
      ⟨left, operator, right, l, r, hs, hl, hr, hc⟩
    · exact literal t a hs
    · have hlen : inner.length < t.length := below_of_shape hs
      exact group t inner p hs hp (ih _ (hn ▸ hlen) hp rfl)
    · obtain ⟨hlen, hlen'⟩ : left.length < t.length ∧ right.length < t.length := below_of_shape hs
      obtain ⟨op, rfl, rfl⟩ := connect_eq_ok hc
      exact operation t left right op l r hs hl hr (ih _ (hn ▸ hlen) hl rfl)
        (ih _ (hn ▸ hlen') hr rfl)

/-! ## Every level -/

variable {c : Category} {ts : List Token} {p : AccessPolicy} {t : Text}

/-- The shape of a text that writes regular tokens is that of its written form. -/
theorem shape_spaced (h : Spaced ts t) (hr : Regular ts) : shape t = shapeOf (written ts) := by
  unfold shape
  rw [withoutBlanks_spaced h hr]

/-- **A text of the grammar reads as the tree of its derivation**, however its tokens are spaced. -/
theorem Derives.parse_spaced (h : Derives c ts p) (ht : Spaced ts t) : parse t = .ok p := by
  have hregular := h.regular
  induction h generalizing t with
  | @literal a h =>
    apply parse_literal
    rw [shape_spaced ht hregular, written_literal]
    exact shapeOf_literal h
  | @group ts p h ih =>
    have hshape : shape t = .ok (.group (written ts)) := by
      rw [shape_spaced ht hregular]
      exact shapeOf_group h
    exact (parse_group hshape).2 (ih (spaced_written ts) h.regular)
  | operand h ih => exact ih ht hregular
  | @operation ts us p q op h h' ih ih' =>
    have hright : parse (written us) = .ok q := ih' (spaced_written us) h'.regular
    have hleft : parse (written ts) = .ok p := ih (spaced_written ts) h.regular
    -- a group on the left has lost its parentheses already
    cases h with
    | @literal a h =>
      rw [written_literal] at hleft
      refine parse_operation ?_ hleft hright
      rw [shape_spaced ht hregular, written_operation, written_literal]
      exact shapeOf_literal_operation h op _
    | @group ts p h =>
      have hinner : shape (written (.mark .opening :: (ts ++ [.mark .closing]))) =
          .ok (.group (written ts)) := by
        rw [shape_spaced (spaced_written _) (Derives.group h).regular]
        exact shapeOf_group h
      refine parse_operation ?_ ((parse_group hinner).1 hleft) hright
      rw [shape_spaced ht hregular, written_operation]
      exact shapeOf_group_operation h op _

/-! ## A bound on the nesting -/

theorem parseWithin_of_parse {limit : Nat} (h : parse t = .ok p) (hlimit : 2 * t.length < limit) :
    parseWithin limit t = .ok p := by
  rw [parseWithin_of_lt hlimit, h]

/-- One level is enough for a literal, however long it is. -/
theorem parseWithin_literal {a : Attribute} (h : shape t = .ok (.literal a)) (limit : Nat) :
    parseWithin (limit + 1) t = .ok (.attr a) := by
  unfold parseWithin
  rw [descendWithin, h]

/-- What is read within a bound on the nesting is read without it. -/
theorem parse_of_parseWithin {limit : Nat} (h : parseWithin limit t = .ok p) :
    parse t = .ok p := by
  rcases parseWithin_eq_or limit t with heq | heq
  · rw [← heq, h]
  · rw [h] at heq
    cases heq

/-- **The reader implements the grammar.** Whatever blanks stand before, between and after the
tokens of an expression, it is read as the tree of its derivation, in which an operator takes the
whole rest; so it is with any bound on the nesting that the length of the text does not reach. -/
theorem parse_grammar (h : Derives .expression ts p) (ht : Spaced ts t) :
    parse t = .ok p ∧ ∀ limit, 2 * t.length < limit → parseWithin limit t = .ok p :=
  ⟨h.parse_spaced ht, fun _ hlimit => parseWithin_of_parse (h.parse_spaced ht) hlimit⟩

/-- Single characters of marks inside names, blanks on both sides of marks or on none, and an
operator that takes the rest behind a group. -/
theorem parse_grammar_operation :
    let a : Attribute := ⟨"A|".toText, "|b:".toText⟩
    let b : Attribute := ⟨":C".toText, "d e".toText⟩
    let c : Attribute := ⟨"E".toText, "f".toText⟩
    let ts : List Token := [.mark .opening, .word a.axis, .mark .separator, .word a.name,
      .mark .closing, .mark .and, .word b.axis, .mark .separator, .word b.name, .mark .or,
      .word c.axis, .mark .separator, .word c.name]
    let p : AccessPolicy := .and (.attr a) (.or (.attr b) (.attr c))
    let t := "\t( A| ::|b: )&&:C::d e\n|| E:: f ".toText
    Derives .expression ts p ∧ Spaced ts t ∧ parse t = .ok p := by
  intro a b c ts p t
  have hd : Derives .expression ts p :=
    .operation .and (.group (.operand (.literal (by decide))))
      (.operation .or (.literal (by decide)) (.operand (.literal (by decide))))
  have ht : Spaced ts t :=
    @Spaced.cons [.char '\t'] _ _ _ (by decide) <| @Spaced.cons [.char ' '] _ _ _ (by decide) <|
    @Spaced.cons [.char ' '] _ _ _ (by decide) <| @Spaced.cons [] _ _ _ (by decide) <|
    @Spaced.cons [.char ' '] _ _ _ (by decide) <| @Spaced.cons [] _ _ _ (by decide) <|
    @Spaced.cons [] _ _ _ (by decide) <| @Spaced.cons [] _ _ _ (by decide) <|
    @Spaced.cons [] _ _ _ (by decide) <| @Spaced.cons [.char '\n'] _ _ _ (by decide) <|
    @Spaced.cons [.char ' '] _ _ _ (by decide) <| @Spaced.cons [] _ _ _ (by decide) <|
    @Spaced.cons [.char ' '] _ _ _ (by decide) <| @Spaced.nil [.char ' '] (by decide)
  exact ⟨hd, ht, (parse_grammar hd ht).1⟩

end AttributeAccess.Expression
