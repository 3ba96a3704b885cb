import AttributeAccess.Expression.Writer
import AttributeAccess.Proofs.Expression.Parser

/-!
# Expressions are read as they were written

The text of a policy is a text of the grammar with the policy as its tree (`Legible.hasText`),
since every operand that is no literal is written as a group. Reading it gives the policy back.
-/

namespace AttributeAccess

open Expression

namespace AccessPolicy

/-- Policies that have a text: all their literals are legible and none of them is `all`. -/
def Legible : AccessPolicy → Prop
  | all => False
  | attr a => a.Legible
  | and l r => l.Legible ∧ r.Legible
  | or l r => l.Legible ∧ r.Legible

theorem toExpression_tree {l r : AccessPolicy} {lt rt : Text} (op : Operator)
    (hl : l.toExpression = .ok lt) (hr : r.toExpression = .ok rt) :
    (op.tree l r).toExpression = .ok (l.operandText lt ++
      (([.char ' '] ++ op.mark.text) ++ ([.char ' '] ++ r.operandText rt))) := by
  cases op with
  | or =>
    show (AccessPolicy.or l r).toExpression = _
    unfold toExpression
    rw [hl, hr]
    exact congrArg Except.ok (List.append_assoc _ _ _)
  | and =>
    show (AccessPolicy.and l r).toExpression = _
    unfold toExpression
    rw [hl, hr]
    exact congrArg Except.ok (List.append_assoc _ _ _)

/-- A text of an operation holds the texts of its operands. -/
theorem toExpression_tree_inv {op : Operator} {l r : AccessPolicy} {text : Text}
    (h : (op.tree l r).toExpression = .ok text) :
    ∃ lt rt, l.toExpression = .ok lt ∧ r.toExpression = .ok rt ∧
      text = l.operandText lt ++
        (([.char ' '] ++ op.mark.text) ++ ([.char ' '] ++ r.operandText rt)) := by
  have hl : ∃ lt, l.toExpression = .ok lt := by
    cases hl : l.toExpression with
    | ok lt => exact ⟨lt, rfl⟩
    | error fault => cases op <;> simp [Operator.tree, toExpression, bind, Except.bind, hl] at h
  have hr : ∃ rt, r.toExpression = .ok rt := by
    obtain ⟨lt, hl⟩ := hl
    cases hr : r.toExpression with
    | ok rt => exact ⟨rt, rfl⟩
    | error fault => cases op <;> simp [Operator.tree, toExpression, bind, Except.bind, hl, hr] at h
  obtain ⟨lt, hl⟩ := hl
  obtain ⟨rt, hr⟩ := hr
  rw [toExpression_tree op hl hr] at h
  exact ⟨lt, rt, hl, hr, (Except.ok.inj h).symm⟩

theorem operandText_of_ne {p : AccessPolicy} (h : ∀ a, p ≠ .attr a) (t : Text) :
    p.operandText t = .char '(' :: (t ++ [.char ')']) := by
  cases p with
  | attr a => exact absurd rfl (h a)
  | all => rfl
  | and l r => rfl
  | or l r => rfl

theorem spaced_group {ts : List Token} {t : Text} (h : Spaced ts t) :
    Spaced (.mark .opening :: (ts ++ [.mark .closing])) (.char '(' :: (t ++ [.char ')'])) := by
  have hclosing : Spaced [.mark .closing] [.char ')'] := spaced_written [.mark .closing]
  have hrest := h.append hclosing
  exact @Spaced.cons [] _ _ (.mark .opening) Text.allBlank_nil hrest

theorem spaced_operation {ts us : List Token} {t u : Text} (op : Operator) (ht : Spaced ts t)
    (hu : Spaced us u) :
    Spaced (ts ++ .mark op.mark :: us)
      (t ++ (([.char ' '] ++ op.mark.text) ++ ([.char ' '] ++ u))) := by
  have hblank : Text.AllBlank [.char ' '] := by decide
  have hright : Spaced us ([.char ' '] ++ u) := (Spaced.nil hblank).append hu
  exact ht.append (.cons (.mark op.mark) hblank hright)

/-- The policy has a text, and that is a text of the grammar with the policy as its tree. -/
def HasText (t : AccessPolicy) : Prop :=
  ∃ text, t.toExpression = .ok text ∧ ∃ ts, Derives .expression ts t ∧ Spaced ts text

theorem spaced_text (a : Attribute) :
    Spaced [.word a.axis, .mark .separator, .word a.name] a.text := by
  have hs := spaced_written [.word a.axis, .mark .separator, .word a.name]
  rwa [written_literal] at hs

/-- Written as an operand, a policy is derived as one. -/
theorem operandText_spaced {t : AccessPolicy} {text : Text} {ts : List Token} (h : t.Legible)
    (htext : t.toExpression = .ok text) (hd : Derives .expression ts t) (hs : Spaced ts text) :
    ∃ us, Derives .operand us t ∧ Spaced us (t.operandText text) := by
  cases t with
  | all => exact absurd h id
  | attr a =>
    cases htext
    exact ⟨_, .literal h, spaced_text a⟩
  | and l r => exact ⟨_, .group hd, spaced_group hs⟩
  | or l r => exact ⟨_, .group hd, spaced_group hs⟩

theorem hasText_tree {l r : AccessPolicy} (op : Operator) (hl : l.Legible) (hr : r.Legible)
    (hlt : l.HasText) (hrt : r.HasText) : (op.tree l r).HasText := by
  obtain ⟨lt, hlt, ts, hts, hls⟩ := hlt
  obtain ⟨rt, hrt, us, hus, hrs⟩ := hrt
  obtain ⟨ts, hts, hls⟩ := operandText_spaced hl hlt hts hls
  obtain ⟨us, hus, hrs⟩ := operandText_spaced hr hrt hus hrs
  exact ⟨_, toExpression_tree op hlt hrt, _, .operation op hts (.operand hus),
    spaced_operation op hls hrs⟩

theorem Legible.hasText {t : AccessPolicy} (h : t.Legible) : t.HasText := by
  induction t with
  | all => exact absurd h id
  | attr a => exact ⟨a.text, rfl, _, .operand (.literal h), spaced_text a⟩
  | and l r ihl ihr => exact hasText_tree .and h.1 h.2 (ihl h.1) (ihr h.2)
  | or l r ihl ihr => exact hasText_tree .or h.1 h.2 (ihl h.1) (ihr h.2)

/-- **A policy is read back from its text**, whatever its shape and depth; so it is with any bound
on the nesting that the length of the text does not reach. -/
theorem parse_toExpression {t : AccessPolicy} (h : t.Legible) :
    ∃ text, t.toExpression = .ok text ∧ parse text = .ok t ∧
      ∀ limit, 2 * text.length < limit → parseWithin limit text = .ok t := by
  obtain ⟨text, htext, ts, hd, hs⟩ := h.hasText
  have hparse := hd.parse_spaced hs
  exact ⟨text, htext, hparse, fun limit hlimit => parseWithin_of_parse hparse hlimit⟩

/-- Connectives nested on both sides. -/
theorem parse_toExpression_nested :
    let a : Attribute := ⟨"A|".toText, "|b:".toText⟩
    let b : Attribute := ⟨":C".toText, "d e".toText⟩
    let t : AccessPolicy :=
      .and (.or (.attr a) (.attr b)) (.or (.attr b) (.and (.attr a) (.attr b)))
    let text := "(A|::|b: || :C::d e) && (:C::d e || (A|::|b: && :C::d e))".toText
    t.Legible ∧ t.toExpression = .ok text ∧ parse text = .ok t := by
  intro a b t text
  have ha : a.Legible := by decide
  have hb : b.Legible := by decide
  have ht : t.Legible := ⟨⟨ha, hb⟩, hb, ha, hb⟩
  have htext : t.toExpression = .ok text := rfl
  obtain ⟨read, hread, hparse, -⟩ := parse_toExpression ht
  rw [htext] at hread
  cases hread
  exact ⟨ht, htext, hparse⟩

end AccessPolicy

end AttributeAccess
