import AttributeAccess.Proofs.Expression.Literals
import AttributeAccess.Proofs.Expression.Writer

/-!
# Where the parentheses of an expression stand

A tree is read from texts that differ in their parentheses and their blanks only. `Layout` gives
the visible characters of such texts. Two of them with the same tree that start one text hold the
same parentheses, also where the literals hold parentheses of their own (`Layout.unique`): the
parentheses in front of the first literal are told by its first character, and as many close behind
the last one, since those of the literals are the same in both. Without the characters that lay
an expression out, what is left of a text that was read is what is left of the literals of its tree
(`content_eq_of_parse`).
-/

namespace AttributeAccess

namespace AccessPolicy

open Expression

/-- The two connectives as one case. -/
theorem tree_induction {P : AccessPolicy → Prop} (all : P all) (attr : ∀ a, P (attr a))
    (tree : ∀ (op : Operator) (l r), P l → P r → P (op.tree l r)) (p : AccessPolicy) : P p := by
  induction p with
  | all => exact all
  | attr a => exact attr a
  | and l r ihl ihr => exact tree .and l r ihl ihr
  | or l r ihl ihr => exact tree .or l r ihl ihr

end AccessPolicy

namespace Expression

open AccessPolicy

theorem tree_injective {op op' : Operator} {l r l' r' : AccessPolicy}
    (h : op.tree l r = op'.tree l' r') : op = op' ∧ l = l' ∧ r = r' := by
  cases op <;> cases op' <;> cases h <;> exact ⟨rfl, rfl, rfl⟩

theorem tree_ne_attr (op : Operator) (l r : AccessPolicy) (a : Attribute) :
    op.tree l r ≠ .attr a := by
  cases op <;> exact fun h => by cases h

/-! ## Layouts -/

/-- The visible characters of a text with the tree, in parentheses or not. -/
inductive Layout : AccessPolicy → Text → Prop
  | literal (a : Attribute) : Layout (.attr a) a.text.visible
  | group {p : AccessPolicy} {s : Text} (h : Layout p s) :
      Layout p (.char '(' :: (s ++ [.char ')']))
  | operation {l r : AccessPolicy} {s u : Text} (op : Operator) (hl : Layout l s)
    (hr : Layout r u) : Layout (op.tree l r) (s ++ (op.mark.text ++ u))

theorem visible_mark (m : Mark) : m.text.visible = m.text := by
  cases m <;> decide

theorem visible_group (w : Text) :
    Text.visible (.char '(' :: (w ++ [.char ')'])) = .char '(' :: (w.visible ++ [.char ')']) := by
  have hself : (.char '(' :: (w ++ [.char ')']) : Text) = [.char '('] ++ (w ++ [.char ')']) := rfl
  rw [hself, Text.visible_append, Text.visible_append]
  rfl

theorem visible_withoutBlanks (t : Text) : (withoutBlanks t).visible = t.visible :=
  (thinned_withoutBlanks t).visible_eq

theorem visible_group_operation (op : Operator) (left right : Text) :
    Text.visible (.char '(' :: (left ++ .char ')' :: (op.mark.text ++ right))) =
      .char '(' :: (left.visible ++ [.char ')']) ++ (op.mark.text ++ right.visible) := by
  have hself : .char '(' :: (left ++ .char ')' :: (op.mark.text ++ right)) =
      .char '(' :: (left ++ [.char ')']) ++ (op.mark.text ++ right) := by simp
  rw [hself, Text.visible_append, Text.visible_append, visible_group, visible_mark]

/-- The left operand and the operator behind it, in the visible characters of an operation. -/
theorem visible_operation {w left right : Text} {op : Operator}
    (h : Shows w (.operation left op.mark.text right)) :
    w.visible = left.visible ++ (op.mark.text ++ right.visible) ∨
      w.visible =
        .char '(' :: (left.visible ++ [.char ')']) ++ (op.mark.text ++ right.visible) := by
  rcases h.operation_inv with ⟨rfl, -⟩ | ⟨rfl, -⟩
  · exact .inl (by simp only [Text.visible_append, visible_mark])
  · exact .inr (visible_group_operation op left right)

theorem layout_of_parse {t : Text} {p : AccessPolicy} (h : parse t = .ok p) :
    Layout p t.visible := by
  refine parse_induction (P := fun t p => Layout p t.visible) ?_ ?_ ?_ h
  · intro t a hs
    rw [← visible_withoutBlanks, (shape_literal_iff.1 hs).1]
    exact .literal a
  · intro t inner p hs _ ih
    have hshows := shows_of_shape hs
    rw [← visible_withoutBlanks]
    generalize withoutBlanks t = w at hshows
    cases hshows with
    | group =>
      rw [visible_group]
      exact .group ih
  · intro t left right op l r hs _ _ ihl ihr
    rw [← visible_withoutBlanks]
    rcases visible_operation (shows_of_shape hs) with hv | hv <;> rw [hv]
    · exact .operation op ihl ihr
    · exact .operation op (.group ihl) ihr

theorem layout_operandText {p : AccessPolicy} {text : Text} (h : Layout p text.visible) :
    Layout p (p.operandText text).visible := by
  by_cases hp : ∃ a, p = .attr a
  · obtain ⟨a, rfl⟩ := hp
    exact h
  · rw [operandText_of_ne (not_exists.1 hp), visible_group]
    exact .group h

theorem visible_spaced (op : Operator) (u v : Text) :
    Text.visible (u ++ (([.char ' '] ++ op.mark.text) ++ ([.char ' '] ++ v))) =
      u.visible ++ (op.mark.text ++ v.visible) := by
  have hblank : Text.visible [.char ' '] = [] := by decide
  simp only [Text.visible_append, hblank, visible_mark, List.nil_append]

theorem layout_toExpression {p : AccessPolicy} {text : Text} (h : p.toExpression = .ok text) :
    Layout p text.visible := by
  induction p using tree_induction generalizing text with
  | all => cases h
  | attr a =>
    cases h
    exact .literal a
  | tree op l r ihl ihr =>
    obtain ⟨lt, rt, hl, hr, rfl⟩ := toExpression_tree_inv h
    rw [visible_spaced]
    exact .operation op (layout_operandText (ihl hl)) (layout_operandText (ihr hr))

/-! ## Between the outermost literals -/

/-- Two texts around an operator, with parentheses between them and it. -/
def Joined (op : Operator) (P Q : Text → Prop) (s : Text) : Prop :=
  ∃ u v c o, P u ∧ Q v ∧
    s = u ++ (List.replicate c (.char ')') ++ (op.mark.text ++ (List.replicate o (.char '(') ++ v)))

/-- A layout from the first character of the first literal to the last of the last one. -/
def Core : AccessPolicy → Text → Prop
  | .all, _ => False
  | .attr a, s => s = a.text.visible
  | .and l r, s => Joined .and (Core l) (Core r) s
  | .or l r, s => Joined .or (Core l) (Core r) s

theorem core_tree {op : Operator} {l r : AccessPolicy} {s : Text} :
    Core (op.tree l r) s ↔ Joined op (Core l) (Core r) s := by
  cases op <;> rfl

variable {p : AccessPolicy} {s : Text}

theorem Layout.exists_core (h : Layout p s) : ∃ o c k, Core p k ∧
    s = List.replicate o (.char '(') ++ (k ++ List.replicate c (.char ')')) := by
  induction h with
  | literal a => exact ⟨0, 0, _, rfl, by simp⟩
  | group h ih =>
    obtain ⟨o, c, k, hk, rfl⟩ := ih
    refine ⟨o + 1, c + 1, k, hk, ?_⟩
    rw [List.replicate_succ, List.replicate_succ']
    simp only [List.cons_append, List.append_assoc]
  | operation op hl hr ihl ihr =>
    obtain ⟨o, c, k, hk, rfl⟩ := ihl
    obtain ⟨o', c', k', hk', rfl⟩ := ihr
    refine ⟨o, c', _, core_tree.2 ⟨k, k', c, o', hk, hk', rfl⟩, ?_⟩
    simp only [List.append_assoc]

/-- In a layout as many parentheses open as close, apart from those in the literals. -/
theorem Layout.count (h : Layout p s) :
    s.count (.char '(') + (p.literals.flatMap fun a => a.text.visible).count (.char ')') =
      s.count (.char ')') + (p.literals.flatMap fun a => a.text.visible).count (.char '(') := by
  induction h with
  | literal a => simp [literals, Nat.add_comm]
  | group h ih =>
    simp only [List.count_cons, List.count_append, List.count_nil] at ih ⊢
    simp
    omega
  | operation op hl hr ihl ihr =>
    have hop : op.mark.text.count (.char '(') = 0 ∧ op.mark.text.count (.char ')') = 0 := by
      cases op <;> decide
    simp only [List.count_append, literals_tree, List.flatMap_append, hop]
    omega

theorem replicate_append_inj {c : CodePoint} {m n : Nat} {x y : Text} (hx : x.head? ≠ some c)
    (hy : y.head? ≠ some c) (h : List.replicate m c ++ x = List.replicate n c ++ y) :
    m = n ∧ x = y := by
  induction m generalizing n with
  | zero =>
    cases n with
    | zero => exact ⟨rfl, h⟩
    | succ n =>
      refine absurd ?_ hx
      rw [show x = List.replicate (n + 1) c ++ y from h]
      rfl
  | succ m ih =>
    cases n with
    | zero =>
      refine absurd ?_ hy
      rw [show y = List.replicate (m + 1) c ++ x from h.symm]
      rfl
    | succ n =>
      rw [List.replicate_succ, List.replicate_succ, List.cons_append, List.cons_append] at h
      obtain ⟨hmn, hxy⟩ := ih (List.cons.inj h).2
      exact ⟨congrArg Nat.succ hmn, hxy⟩

theorem head?_core {k : Text} (hk : Core p k) (hp : ∀ a ∈ p.literals, a.Expressible) (x : Text) :
    (k ++ x).head? ≠ some (.char '(') := by
  induction p using tree_induction generalizing k x with
  | all => exact absurd hk id
  | attr a =>
    have ha := hp a (List.mem_singleton_self a)
    obtain ⟨c, w, hcons⟩ := List.exists_cons_of_ne_nil ha.text_ne_nil
    have hvisible : isBlank c = false := ha.startsSolid_text c (by rw [hcons]; rfl)
    have hopen := ha.head?_text
    rw [hcons] at hopen
    rw [show k = a.text.visible from hk, hcons, Text.visible_cons hvisible]
    exact hopen
  | tree op l r ihl _ =>
    obtain ⟨u, v, c, o, hu, -, rfl⟩ := core_tree.1 hk
    rw [List.append_assoc]
    exact ihl hu (forall_mem_literals_tree.1 hp).1 _

/-- Each literal starts where the opening parentheses in front of it end. -/
theorem core_unique {k k' x x' : Text} (hp : ∀ a ∈ p.literals, a.Expressible) (hk : Core p k)
    (hk' : Core p k') (h : k ++ x = k' ++ x') : k = k' := by
  induction p using tree_induction generalizing k k' x x' with
  | all => exact absurd hk id
  | attr a => exact Eq.trans hk (Eq.symm hk')
  | tree op l r ihl ihr =>
    obtain ⟨hpl, hpr⟩ := forall_mem_literals_tree.1 hp
    obtain ⟨u, v, c, o, hu, hv, rfl⟩ := core_tree.1 hk
    obtain ⟨u', v', c', o', hu', hv', rfl⟩ := core_tree.1 hk'
    simp only [List.append_assoc] at h
    obtain rfl := ihl hpl hu hu' h
    have hop : ∀ t : Text, (op.mark.text ++ t).head? ≠ some (.char ')') := by
      intro t hhead
      cases op <;> cases hhead
    obtain ⟨rfl, hclose⟩ := replicate_append_inj (hop _) (hop _) (List.append_cancel_left h)
    obtain ⟨rfl, hopen⟩ := replicate_append_inj (head?_core hv hpr x) (head?_core hv' hpr x')
      (List.append_cancel_left hclose)
    rw [ihr hpr hv hv' hopen]

/-- **Two layouts of a tree that start one text are the same**, and if one of them starts behind
some more opening parentheses, as many closing ones are left behind it. -/
theorem Layout.unique {s' x x' : Text} {m : Nat} (hp : ∀ a ∈ p.literals, a.Expressible)
    (h : Layout p s) (h' : Layout p s')
    (heq : List.replicate m (.char '(') ++ (s ++ x) = s' ++ x') :
    x = List.replicate m (.char ')') ++ x' ∧ (m = 0 → s = s') := by
  have hcount := h.count
  have hcount' := h'.count
  obtain ⟨o, c, k, hk, rfl⟩ := h.exists_core
  obtain ⟨o', c', k', hk', rfl⟩ := h'.exists_core
  have hsplit : List.replicate (m + o) (.char '(') ++ (k ++ (List.replicate c (.char ')') ++ x)) =
      List.replicate o' (.char '(') ++ (k' ++ (List.replicate c' (.char ')') ++ x')) := by
    rw [← List.replicate_append_replicate]
    simpa only [List.append_assoc] using heq
  obtain ⟨rfl, hcore⟩ :=
    replicate_append_inj (head?_core hk hp _) (head?_core hk' hp _) hsplit
  obtain rfl := core_unique hp hk hk' hcore
  simp only [List.count_append, List.count_replicate] at hcount hcount'
  have hc : c' = c + m := by
    simp at hcount hcount'
    omega
  subst hc
  refine ⟨?_, fun hm => by rw [hm]; simp⟩
  have hclose := List.append_cancel_left hcore
  rw [← List.replicate_append_replicate, List.append_assoc] at hclose
  exact List.append_cancel_left hclose

/-! ## The left operand of an operation -/

/-- The parentheses in front of the left operand and that operand are told by the text. -/
theorem lead_unique {op : Operator} {l : AccessPolicy} (hl : ∀ a ∈ l.literals, a.Expressible)
    {s s' x x' : Text} {m n : Nat} (h : Layout l s) (h' : Layout l s')
    (heq : List.replicate m (.char '(') ++ (s ++ (op.mark.text ++ x)) =
      List.replicate n (.char '(') ++ (s' ++ (op.mark.text ++ x'))) : m = n ∧ s = s' := by
  have hshift : ∀ {s s' x x' : Text} {m n : Nat}, Layout l s → Layout l s' → n ≤ m →
      List.replicate m (.char '(') ++ (s ++ (op.mark.text ++ x)) =
        List.replicate n (.char '(') ++ (s' ++ (op.mark.text ++ x')) → m = n ∧ s = s' := by
    intro s s' x x' m n h h' hle heq
    obtain ⟨k, rfl⟩ := Nat.exists_eq_add_of_le hle
    rw [← List.replicate_append_replicate, List.append_assoc] at heq
    obtain ⟨hclose, hself⟩ := h.unique hl h' (List.append_cancel_left heq)
    cases k with
    | zero => exact ⟨rfl, hself rfl⟩
    | succ k =>
      refine absurd (congrArg List.head? hclose) ?_
      cases op <;> simp [List.replicate_succ, Operator.mark, Mark.text, orMark, andMark]
  rcases Nat.le_total n m with hle | hle
  · exact hshift h h' hle heq
  · obtain ⟨hmn, hs⟩ := hshift h' h hle heq.symm
    exact ⟨hmn.symm, hs.symm⟩

/-- The left operand of a reading, in its parentheses if it has some. -/
theorem lead_of_shape {t left right : Text} {op : Operator} {l : AccessPolicy}
    (h : shape t = .ok (.operation left op.mark.text right)) (hl : parse left = .ok l) :
    ∃ s x, Layout l s ∧ t.visible = s ++ (op.mark.text ++ x) := by
  have hlayout := layout_of_parse hl
  rw [← visible_withoutBlanks]
  rcases visible_operation (shows_of_shape h) with hv | hv
  · exact ⟨_, _, hlayout, hv⟩
  · exact ⟨_, _, hlayout.group, hv⟩

theorem exists_lead {t : Text} {op : Operator} {l r : AccessPolicy}
    (h : parse t = .ok (op.tree l r)) : ∃ m s x, Layout l s ∧
      t.visible = List.replicate m (.char '(') ++ (s ++ (op.mark.text ++ x)) := by
  refine parse_induction (P := fun t p => ∀ (op : Operator) l r, p = op.tree l r → ∃ m s x,
    Layout l s ∧ t.visible = List.replicate m (.char '(') ++ (s ++ (op.mark.text ++ x)))
    ?_ ?_ ?_ h op l r rfl
  · intro t a _ op l r ha
    exact absurd ha.symm (tree_ne_attr op l r a)
  · intro t inner p hs _ ih op l r hp
    obtain ⟨m, s, x, hlayout, hv⟩ := ih op l r hp
    refine ⟨m + 1, s, x ++ [.char ')'], hlayout, ?_⟩
    have hshows := shows_of_shape hs
    rw [← visible_withoutBlanks]
    generalize withoutBlanks t = w at hshows
    cases hshows
    rw [visible_group, hv, List.replicate_succ]
    simp only [List.cons_append, List.append_assoc]
  · intro t left right op' l' r' hs hl _ _ _ op l r hp
    obtain ⟨rfl, rfl, rfl⟩ := tree_injective hp
    obtain ⟨s, x, hlayout, hv⟩ := lead_of_shape hs hl
    exact ⟨0, s, x, hlayout, hv⟩

/-! ## What is left without the layout -/

/-- Blanks, parentheses and the characters of the operators, which lay an expression out, although
some of them may stand in its literals too. -/
def isLayout (c : CodePoint) : Bool :=
  isBlank c || c == .char '(' || c == .char ')' || c == .char '&' || c == .char '|'

/-- A text without the characters that lay expressions out. -/
def content (t : Text) : Text :=
  t.filter fun c => !isLayout c

@[simp] theorem content_append (t u : Text) : content (t ++ u) = content t ++ content u :=
  List.filter_append ..

theorem content_visible (t : Text) : content t.visible = content t := by
  unfold content Text.visible
  rw [List.filter_filter]
  refine List.filter_congr fun c _ => ?_
  cases hc : isBlank c <;> simp [isLayout, hc]

theorem content_operator (op : Operator) : content op.mark.text = [] := by
  cases op <;> decide

theorem content_group (s : Text) : content (.char '(' :: (s ++ [.char ')'])) = content s := by
  have hself : (.char '(' :: (s ++ [.char ')']) : Text) = [.char '('] ++ (s ++ [.char ')']) := rfl
  have hopen : content [.char '('] = [] := by decide
  have hclose : content [.char ')'] = [] := by decide
  rw [hself, content_append, content_append, hopen, hclose, List.nil_append, List.append_nil]

/-- Parentheses and operators are all that a layout adds to its literals. -/
theorem Layout.content_eq (h : Layout p s) :
    content s = content (p.literals.flatMap Attribute.text) := by
  induction h with
  | literal a => simp only [content_visible, literals, List.flatMap_singleton]
  | group h ih => rw [content_group, ih]
  | operation op hl hr ihl ihr =>
    rw [literals_tree, List.flatMap_append, content_append, content_append, content_append,
      content_operator, List.nil_append, ihl, ihr]

/-- **Reading drops nothing.** Whatever text is read, well-formed or not, its characters stand in
the literals of its tree, from left to right, but for blanks, parentheses and those of operators. -/
theorem content_eq_of_parse {t : Text} (h : parse t = .ok p) :
    content t = content (p.literals.flatMap Attribute.text) := by
  rw [← content_visible t]
  exact (layout_of_parse h).content_eq

/-- Parentheses that are not in front and single characters of operators stay in the literals. -/
theorem content_eq_of_parse_misplaced :
    let t := "(A:: b&) && C| )::( d e)".toText
    let p : AccessPolicy :=
      .and (.attr ⟨"A".toText, "b&".toText⟩) (.attr ⟨"C|)".toText, "(d e)".toText⟩)
    parse t = .ok p ∧ content t = content (p.literals.flatMap Attribute.text) ∧
      content t = "A::bC::de".toText := by
  have hwithin : parseWithin 3 "(A:: b&) && C| )::( d e)".toText =
      .ok (.and (.attr ⟨"A".toText, "b&".toText⟩) (.attr ⟨"C|)".toText, "(d e)".toText⟩)) := by cbv
  intro t p
  have hparse : parse t = .ok p := parse_of_parseWithin hwithin
  exact ⟨hparse, content_eq_of_parse hparse, by decide⟩

end Expression

end AttributeAccess
