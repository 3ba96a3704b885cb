import AttributeAccess.Proofs.Attribute
import AttributeAccess.Proofs.Expression.Spaces

/-!
# The shape of an expression

`shapeOf` shows a literal or a group, alone or in front of an operator, and nothing else
(`shapeOf_eq_ok_iff`). In a text of the grammar a literal holds no operator, and an expression
closes every group that it opens (`Derives.closed`), so an operator or a closing parenthesis that
is found is the one that the grammar put there.
-/

namespace AttributeAccess

namespace Expression

/-! ## Literals -/

open Attribute (Legible)

variable {a : Attribute}

theorem ofText?_of_legible (h : Legible a) : Attribute.ofText? a.text = some a := by
  have haxis : Text.Clear Mark.separator.text a.axis (Attribute.separator ++ a.name) :=
    h.axis.clear fun hlast => absurd hlast h.axis_end
  have hname : Text.Clear Mark.separator.text a.name [] :=
    h.name.clear fun _ hhead => by cases hhead
  exact Attribute.ofText?_text h.axis.ne_nil h.name.ne_nil haxis hname

/-- No operator starts inside a literal, whatever follows it. -/
theorem clear_operator (h : Legible a) (op : Operator) (t : Text) :
    Text.Clear op.mark.text a.text t := by
  have haxis : Text.Clear op.mark.text a.axis (Attribute.separator ++ a.name ++ t) := by
    refine h.axis.clear fun _ hhead => ?_
    cases op <;> cases hhead
  have hsep : Text.Clear op.mark.text Attribute.separator (a.name ++ t) := by
    have hne : Mark.separator ≠ op.mark := by cases op <;> decide
    exact clear_mark hne _
  have hname : Text.Clear op.mark.text a.name t :=
    h.name.clear fun hlast => absurd hlast (h.name_end_ne op)
  unfold Attribute.text
  rw [Text.clear_append, Text.clear_append, ← List.append_assoc]
  exact ⟨⟨haxis, hsep⟩, hname⟩

theorem parenthesis_not_mem_text (h : Legible a) : .char '(' ∉ a.text ∧ .char ')' ∉ a.text := by
  have hmark : ∀ m : Mark, m.text = [m.char] → m.char ∉ a.text := by
    intro m hm hc
    unfold Attribute.text at hc
    rw [List.mem_append, List.mem_append] at hc
    rcases hc with (hc | hc) | hc
    · exact h.axis.not_mem hm hc
    · have hchar :=
        Mark.char_injective (Mark.char_of_mem (show m.char ∈ Mark.separator.text from hc))
      subst hchar
      cases hm
    · exact h.name.not_mem hm hc
  exact ⟨hmark .opening rfl, hmark .closing rfl⟩

theorem head?_text_append (h : Legible a) (t : Text) : (a.text ++ t).head? ≠ some (.char '(') := by
  obtain ⟨c, u, hc⟩ := List.exists_cons_of_ne_nil h.axis.ne_nil
  intro hhead
  have hopen := h.axis.not_mem (show Mark.opening.text = [Mark.opening.char] from rfl)
  unfold Attribute.text at hhead
  rw [hc] at hhead hopen
  cases hhead
  exact hopen List.mem_cons_self

/-! ## The first operator -/

theorem operatorPosition?_eq_none_iff {t : Text} :
    operatorPosition? t = none ↔ ∀ op : Operator, ¬ op.mark.text <:+: t := by
  have hposition : operatorPosition? t = none ↔
      Text.position? orMark t = none ∧ Text.position? andMark t = none := by
    unfold operatorPosition?
    cases Text.position? orMark t <;> cases Text.position? andMark t <;> simp
  have hmark : ∀ op : Operator,
      Text.position? op.mark.text t = none ↔ ¬ op.mark.text <:+: t :=
    fun op => Text.position?_eq_none_iff op.mark.text_ne_nil
  rw [hposition]
  constructor
  · rintro ⟨hor, hand⟩ (_ | _)
    · exact (hmark .or).1 hor
    · exact (hmark .and).1 hand
  · intro h
    exact ⟨(hmark .or).2 (h .or), (hmark .and).2 (h .and)⟩

/-- The first operator behind a text in which none starts is the one that follows it. -/
theorem operatorPosition?_append {w t : Text} {op : Operator}
    (h : ∀ op' : Operator, Text.Clear op'.mark.text w (op.mark.text ++ t)) :
    operatorPosition? (w ++ (op.mark.text ++ t)) = some w.length := by
  have hor : Text.position? orMark (w ++ (op.mark.text ++ t)) =
      (Text.position? orMark (op.mark.text ++ t)).map (w.length + ·) :=
    Text.position?_append (h .or)
  have hand : Text.position? andMark (w ++ (op.mark.text ++ t)) =
      (Text.position? andMark (op.mark.text ++ t)).map (w.length + ·) :=
    Text.position?_append (h .and)
  have hself := Text.position?_self_append op.mark.text_ne_nil t
  unfold operatorPosition?
  rw [hor, hand]
  cases op with
  | or =>
    have hself : Text.position? orMark (Operator.or.mark.text ++ t) = some 0 := hself
    rw [hself]
    cases Text.position? andMark (Operator.or.mark.text ++ t) <;> simp
  | and =>
    have hself : Text.position? andMark (Operator.and.mark.text ++ t) = some 0 := hself
    rw [hself]
    cases Text.position? orMark (Operator.and.mark.text ++ t) <;> simp

/-- The first operator does not come after any other. -/
theorem exists_operatorPosition?_le (op : Operator) (before after : Text) :
    ∃ n ≤ before.length, operatorPosition? (before ++ op.mark.text ++ after) = some n := by
  obtain ⟨n, hn, hposition⟩ := Text.exists_position?_le op.mark.text_ne_nil before after
  unfold operatorPosition?
  cases op with
  | or =>
    have hor : Text.position? orMark (before ++ Operator.or.mark.text ++ after) = some n :=
      hposition
    rw [hor]
    split
    · next p q hp _ =>
      cases hp
      exact ⟨_, Nat.le_trans (Nat.min_le_left _ _) hn, rfl⟩
    · next p hp _ =>
      cases hp
      exact ⟨_, hn, rfl⟩
    · next hp => cases hp
  | and =>
    have hand : Text.position? andMark (before ++ Operator.and.mark.text ++ after) = some n :=
      hposition
    rw [hand]
    split
    · next p q _ hq =>
      cases hq
      exact ⟨_, Nat.le_trans (Nat.min_le_right _ _) hn, rfl⟩
    · next p _ hq => cases hq
    · exact ⟨n, hn, rfl⟩

/-! ## Groups -/

theorem closingFrom?_opening (depth : Nat) (t : Text) :
    closingFrom? depth (.char '(' :: t) = (closingFrom? (depth + 1) t).map (· + 1) := by
  simp [closingFrom?]

theorem closingFrom?_other {c : CodePoint} (hopen : c ≠ .char '(') (hclose : c ≠ .char ')')
    (depth : Nat)
    (t : Text) : closingFrom? depth (c :: t) = (closingFrom? depth t).map (· + 1) := by
  simp [closingFrom?, hopen, hclose]

theorem map_succ_eq_some_iff {n : Option Nat} {k : Nat} :
    n.map (· + 1) = some (k + 1) ↔ n = some k := by
  cases n <;> simp

/-- A text that closes the groups it opens and no others: the search goes on behind it. -/
def Closed (w : Text) : Prop :=
  ∀ depth t, closingFrom? depth (w ++ t) = (closingFrom? depth t).map (· + w.length)

theorem Closed.append {u w : Text} (hu : Closed u) (hw : Closed w) : Closed (u ++ w) := by
  intro depth t
  rw [List.append_assoc, hu, hw, Option.map_map, List.length_append]
  congr 1
  funext n
  show n + w.length + u.length = n + (u.length + w.length)
  omega

theorem closed_of_not_mem {w : Text} (hopen : .char '(' ∉ w) (hclose : .char ')' ∉ w) :
    Closed w := by
  intro depth t
  induction w with
  | nil => simp
  | cons c w ih =>
    rw [List.mem_cons, not_or] at hopen hclose
    rw [List.cons_append, closingFrom?_other (Ne.symm hopen.1) (Ne.symm hclose.1),
      ih hopen.2 hclose.2, Option.map_map]
    rfl

theorem Closed.group {w : Text} (hw : Closed w) : Closed (.char '(' :: (w ++ [.char ')'])) := by
  intro depth t
  have hclose :
      closingFrom? (depth + 1) (.char ')' :: t) = (closingFrom? depth t).map (· + 1) := rfl
  show (closingFrom? (depth + 1) (w ++ [.char ')'] ++ t)).map (· + 1) = _
  rw [List.append_assoc, hw]
  show ((closingFrom? (depth + 1) (.char ')' :: t)).map _).map _ = _
  rw [hclose, Option.map_map, Option.map_map]
  congr 1
  funext n
  simp
  omega

theorem closed_mark (op : Operator) : Closed op.mark.text := by
  cases op with
  | or => exact closed_of_not_mem (by decide) (by decide)
  | and => exact closed_of_not_mem (by decide) (by decide)

theorem written_literal (a : Attribute) :
    written [.word a.axis, .mark .separator, .word a.name] = a.text := by
  simp [written, Token.text, Mark.text, Attribute.text]

theorem written_group (ts : List Token) :
    written (.mark .opening :: (ts ++ [.mark .closing])) =
      .char '(' :: (written ts ++ [.char ')']) := by
  show .char '(' :: written (ts ++ [.mark .closing]) = _
  rw [written_append]
  rfl

theorem written_operation (ts us : List Token) (op : Operator) :
    written (ts ++ .mark op.mark :: us) = written ts ++ (op.mark.text ++ written us) :=
  written_append ts _

variable {c : Category} {ts : List Token} {p : AccessPolicy}

theorem Derives.closed (h : Derives c ts p) : Closed (written ts) := by
  induction h with
  | @literal a h =>
    rw [written_literal]
    obtain ⟨hopen, hclose⟩ := parenthesis_not_mem_text h
    exact closed_of_not_mem hopen hclose
  | group h ih =>
    rw [written_group]
    exact ih.group
  | operand h ih => exact ih
  | operation op h h' ih ih' =>
    rw [written_operation]
    exact ih.append ((closed_mark op).append ih')

theorem Derives.separator_infix (h : Derives c ts p) : Attribute.separator <:+: written ts := by
  induction h with
  | @literal a h =>
    rw [written_literal]
    exact ⟨a.axis, a.name, rfl⟩
  | group h ih =>
    rw [written_group]
    exact (ih.trans (List.prefix_append _ _).isInfix).trans (List.suffix_cons _ _).isInfix
  | operand h ih => exact ih
  | operation op h h' ih ih' =>
    rw [written_operation]
    exact ih.trans (List.prefix_append _ _).isInfix

/-! ## Cutting at an operator -/

theorem cutAt_operator (left right : Text) (op : Operator) :
    cutAt (left ++ (op.mark.text ++ right)) left.length =
      .ok ⟨left, some ⟨op.mark.text, right⟩⟩ := by
  unfold cutAt
  rw [if_neg (by simp), List.drop_left, List.take_left]
  cases op <;> rfl

theorem cutAt_closing_append (left rest : Text) :
    cutAt (left ++ .char ')' :: rest) left.length =
      (continueAt (left ++ .char ')' :: rest) (left.length + 1) rest).map (⟨left, ·⟩) := by
  unfold cutAt
  rw [if_neg (by simp), List.drop_left, List.take_left]
  rfl

/-! ## What was found -/

theorem eq_append_of_closingFrom? {depth n : Nat} {t : Text} (h : closingFrom? depth t = some n) :
    ∃ w rest, t = w ++ .char ')' :: rest ∧ w.length = n := by
  induction t generalizing depth n with
  | nil => cases h
  | cons c t ih =>
    have hstep : ∀ depth', (closingFrom? depth' t).map (· + 1) = some n →
        ∃ w rest, c :: t = w ++ .char ')' :: rest ∧ w.length = n := by
      intro depth' hmap
      obtain ⟨k, hk, rfl⟩ := Option.map_eq_some_iff.1 hmap
      obtain ⟨w, rest, rfl, rfl⟩ := ih hk
      exact ⟨c :: w, rest, rfl, rfl⟩
    unfold closingFrom? at h
    split at h
    · exact hstep _ h
    · split at h
      · next hclose =>
        cases depth with
        | zero =>
          cases h
          exact ⟨[], t, by rw [hclose]; rfl, rfl⟩
        | succ depth => exact hstep _ h
      · exact hstep _ h

theorem eq_append_of_operatorPosition? {n : Nat} {t : Text} (h : operatorPosition? t = some n) :
    ∃ (w : Text) (op : Operator) (rest : Text),
      t = w ++ (op.mark.text ++ rest) ∧ w.length = n := by
  have hfound : ∀ (op : Operator) (k : Nat), Text.position? op.mark.text t = some k →
      ∃ (w : Text) (op : Operator) (rest : Text),
        t = w ++ (op.mark.text ++ rest) ∧ w.length = k := by
    intro op k hk
    obtain ⟨⟨before, after⟩, hcut, rfl⟩ := Option.map_eq_some_iff.1 hk
    exact ⟨before, op, after, by rw [Text.eq_append_of_cut? hcut, List.append_assoc], rfl⟩
  unfold operatorPosition? at h
  split at h
  · next p q hor hand =>
    cases h
    rcases Nat.le_total p q with hle | hle
    · rw [Nat.min_eq_left hle]
      exact hfound .or p hor
    · rw [Nat.min_eq_right hle]
      exact hfound .and q hand
  · next p hor _ =>
    cases h
    exact hfound .or n hor
  · exact hfound .and n h

/-! ## The four shapes -/

/-- The shape that a text without superfluous blanks has: it starts with a group or it does not,
and it goes on behind the group or the literal, or it does not. -/
inductive Shows : Text → Shape → Prop
  | literal {a : Attribute} (hhead : a.text.head? ≠ some (.char '('))
    (hop : operatorPosition? a.text = none) (ha : a.Representable) : Shows a.text (.literal a)
  | operation {left right : Text} {op : Operator}
    (hhead : (left ++ (op.mark.text ++ right)).head? ≠ some (.char '('))
    (hop : operatorPosition? (left ++ (op.mark.text ++ right)) = some left.length) :
    Shows (left ++ (op.mark.text ++ right)) (.operation left op.mark.text right)
  | group {inner : Text} (hclosing : closingFrom? 0 (inner ++ [.char ')']) = some inner.length) :
    Shows (.char '(' :: (inner ++ [.char ')'])) (.group inner)
  | groupOperation {left right : Text} {c d : CodePoint}
    (hclosing : closingFrom? 0 (left ++ .char ')' :: c :: d :: right) = some left.length) :
    Shows (.char '(' :: (left ++ .char ')' :: c :: d :: right)) (.operation left [c, d] right)

theorem Shows.of_group_operation {left right : Text} (op : Operator)
    (hclosing : closingFrom? 0 (left ++ .char ')' :: (op.mark.text ++ right)) = some left.length) :
    Shows (.char '(' :: (left ++ .char ')' :: (op.mark.text ++ right)))
      (.operation left op.mark.text right) := by
  cases op <;> exact .groupOperation hclosing

theorem Shows.operation_inv {t left right : Text} {op : Operator}
    (h : Shows t (.operation left op.mark.text right)) :
    (t = left ++ (op.mark.text ++ right) ∧ t.head? ≠ some (.char '(') ∧
      operatorPosition? t = some left.length) ∨
    (t = .char '(' :: (left ++ .char ')' :: (op.mark.text ++ right)) ∧
      closingFrom? 0 (left ++ .char ')' :: (op.mark.text ++ right)) = some left.length) := by
  generalize hs : Shape.operation left op.mark.text right = s at h
  cases h with
  | literal => cases hs
  | group => cases hs
  | operation hhead hop =>
    obtain ⟨rfl, hmark, rfl⟩ := Shape.operation.inj hs
    rw [hmark]
    exact .inl ⟨rfl, hhead, hop⟩
  | groupOperation hclosing =>
    obtain ⟨rfl, hmark, rfl⟩ := Shape.operation.inj hs
    rw [hmark]
    exact .inr ⟨rfl, hclosing⟩

theorem shapeOf_of_head {t : Text} (hsep : Attribute.separator <:+: t)
    (hhead : t.head? ≠ some (.char '(')) :
    shapeOf t = match operatorPosition? t with
      | none => (literal t).map .literal
      | some position => (cutAt t position).map .ofParts := by
  have hoccurs : Text.occursIn Attribute.separator t = true :=
    (Text.occursIn_iff (List.cons_ne_nil _ _)).2 hsep
  unfold shapeOf
  rw [hoccurs]
  split
  · next h => cases h
  · split
    · exact absurd rfl hhead
    · rfl

theorem shapeOf_opening {inner : Text} (hsep : Attribute.separator <:+: .char '(' :: inner)
    {n : Nat} (hclosing : closingFrom? 0 inner = some n) :
    shapeOf (.char '(' :: inner) = (cutAt inner n).map .ofParts := by
  have hoccurs : Text.occursIn Attribute.separator (.char '(' :: inner) = true :=
    (Text.occursIn_iff Attribute.separator_ne_nil).2 hsep
  obtain ⟨w, rest, hw, -⟩ := eq_append_of_closingFrom? hclosing
  have hcontains : inner.contains (.char ')') = true := by
    rw [List.contains_iff_mem, hw]
    simp
  unfold shapeOf closing
  simp only [hoccurs, hcontains, hclosing, Bool.not_true, Bool.false_eq_true, if_false]
  cases hcut : cutAt inner n with
  | error fault => simp [bind, Except.bind, hcut, Except.map]
  | ok parts => simp [bind, Except.bind, hcut, Except.map]

theorem closingFrom?_of_shapeOf {inner : Text} {s : Shape}
    (h : shapeOf (.char '(' :: inner) = .ok s) :
    ∃ n, closingFrom? 0 inner = some n := by
  cases hclosing : closingFrom? 0 inner with
  | some n => exact ⟨n, rfl⟩
  | none =>
    unfold shapeOf closing at h
    simp only [hclosing, bind, Except.bind] at h
    split at h
    · cases h
    · split at h <;> cases h

theorem shapeOf_eq_ok_iff {t : Text} {s : Shape} :
    shapeOf t = .ok s ↔ Attribute.separator <:+: t ∧ Shows t s := by
  constructor
  · intro h
    have hsep : Attribute.separator <:+: t := by
      rw [← Text.occursIn_iff Attribute.separator_ne_nil]
      unfold shapeOf at h
      split at h
      · cases h
      · next hoccurs => simpa using hoccurs
    refine ⟨hsep, ?_⟩
    by_cases hhead : t.head? = some (.char '(')
    · obtain ⟨inner, rfl⟩ : ∃ inner, t = .char '(' :: inner := by
        cases t with
        | nil => cases hhead
        | cons c t =>
          cases hhead
          exact ⟨t, rfl⟩
      obtain ⟨n, hclosing⟩ := closingFrom?_of_shapeOf h
      obtain ⟨left, rest, rfl, rfl⟩ := eq_append_of_closingFrom? hclosing
      rw [shapeOf_opening hsep hclosing, cutAt_closing_append] at h
      match rest, h with
      | [], h =>
        cases h
        exact .group hclosing
      | [_], h => cases h
      | c :: d :: right, h =>
        cases h
        exact .groupOperation hclosing
    · rw [shapeOf_of_head hsep hhead] at h
      cases hposition : operatorPosition? t with
      | none =>
        rw [hposition] at h
        unfold literal at h
        cases ha : Attribute.ofText? t with
        | none =>
          rw [ha] at h
          cases h
        | some a =>
          rw [ha] at h
          cases h
          obtain rfl := Attribute.text_of_ofText? ha
          exact .literal hhead hposition ha
      | some n =>
        obtain ⟨left, op, right, rfl, rfl⟩ := eq_append_of_operatorPosition? hposition
        rw [hposition] at h
        change (cutAt _ left.length).map _ = _ at h
        rw [cutAt_operator] at h
        cases h
        exact .operation hhead hposition
  · rintro ⟨hsep, hshows⟩
    cases hshows with
    | literal hhead hop ha =>
      rw [shapeOf_of_head hsep hhead, hop]
      unfold literal
      rw [ha]
      rfl
    | operation hhead hop =>
      rw [shapeOf_of_head hsep hhead, hop]
      show (cutAt _ _).map _ = _
      rw [cutAt_operator]
      rfl
    | group hclosing =>
      rw [shapeOf_opening hsep hclosing, cutAt_closing_append]
      rfl
    | groupOperation hclosing =>
      rw [shapeOf_opening hsep hclosing, cutAt_closing_append]
      rfl

/-! ## Shapes of the grammar -/

theorem shapeOf_group (h : Derives .expression ts p) :
    shapeOf (written (.mark .opening :: (ts ++ [.mark .closing]))) = .ok (.group (written ts)) := by
  have hclosing : closingFrom? 0 (written ts ++ [.char ')']) = some (written ts).length := by
    rw [h.closed 0 [.char ')']]
    show some (0 + _) = _
    rw [Nat.zero_add]
  have hsep := Derives.separator_infix (.group h)
  rw [written_group] at hsep ⊢
  exact shapeOf_eq_ok_iff.2 ⟨hsep, .group hclosing⟩

theorem shapeOf_group_operation (h : Derives .expression ts p) (op : Operator) (t : Text) :
    shapeOf (written (.mark .opening :: (ts ++ [.mark .closing])) ++ (op.mark.text ++ t)) =
      .ok (.operation (written ts) op.mark.text t) := by
  have hclosing : closingFrom? 0 (written ts ++ .char ')' :: (op.mark.text ++ t)) =
      some (written ts).length := by
    rw [h.closed 0 _]
    show some (0 + _) = _
    rw [Nat.zero_add]
  have hsep := List.IsInfix.trans (Derives.separator_infix (.group h))
    (List.prefix_append _ (op.mark.text ++ t)).isInfix
  rw [written_group, List.cons_append, List.append_assoc] at hsep ⊢
  exact shapeOf_eq_ok_iff.2 ⟨hsep, .of_group_operation op hclosing⟩

theorem shapeOf_literal (h : Legible a) : shapeOf a.text = .ok (.literal a) := by
  have hhead := head?_text_append h []
  rw [List.append_nil] at hhead
  have hop : operatorPosition? a.text = none := operatorPosition?_eq_none_iff.2 fun op =>
    Text.not_infix_of_clear op.mark.text_ne_nil (clear_operator h op [])
  exact shapeOf_eq_ok_iff.2 ⟨⟨a.axis, a.name, rfl⟩, .literal hhead hop (ofText?_of_legible h)⟩

theorem shapeOf_literal_operation (h : Legible a) (op : Operator) (t : Text) :
    shapeOf (a.text ++ (op.mark.text ++ t)) = .ok (.operation a.text op.mark.text t) := by
  have hsep : Attribute.separator <:+: a.text ++ (op.mark.text ++ t) :=
    ⟨a.axis, a.name ++ (op.mark.text ++ t), by simp [Attribute.text]⟩
  exact shapeOf_eq_ok_iff.2 ⟨hsep, .operation (head?_text_append h _)
    (operatorPosition?_append fun op' => clear_operator h op' _)⟩

end Expression

end AttributeAccess
