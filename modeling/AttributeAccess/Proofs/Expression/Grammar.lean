import AttributeAccess.Expression.Parser
import AttributeAccess.Proofs.Text.Blank
import AttributeAccess.Proofs.Text.Search

/-!
# The grammar of expressions

An expression is an operand, or an operand, an operator and an expression; an operand is a literal
or an expression in parentheses. `Derives` gives the tokens of an expression together with its
tree, and `Spaced` the texts that write tokens with blanks before, between and after them. What
the reader needs to know about the tokens of an expression is said by `Regular`: words are plain,
no word stands beside a word, and none ends with the character that its successor starts with.
-/

namespace AttributeAccess

namespace Expression

inductive Mark where
  | opening
  | closing
  | or
  | and
  | separator
deriving DecidableEq, Repr

namespace Mark

def text : Mark → Text
  | opening => openMark
  | closing => closeMark
  | or => orMark
  | and => andMark
  | separator => Attribute.separator

/-- The character that the mark consists of, once or twice. -/
def char : Mark → CodePoint
  | opening => .char '('
  | closing => .char ')'
  | or => .char '|'
  | and => .char '&'
  | separator => .char ':'

theorem text_eq (m : Mark) : m.text = [m.char] ∨ m.text = [m.char, m.char] := by
  cases m
  · exact .inl rfl
  · exact .inl rfl
  · exact .inr rfl
  · exact .inr rfl
  · exact .inr rfl

theorem text_ne_nil (m : Mark) : m.text ≠ [] := by
  cases m <;> exact List.cons_ne_nil _ _

theorem char_of_mem {m : Mark} {c : CodePoint} (h : c ∈ m.text) : c = m.char := by
  rcases m.text_eq with he | he <;> simpa [he] using h

theorem char_injective {m n : Mark} (h : m.char = n.char) : m = n := by
  cases m <;> cases n <;> first | rfl | exact absurd h (by decide)

theorem char_ne {m n : Mark} (h : m ≠ n) : m.char ≠ n.char :=
  fun hc => h (char_injective hc)

theorem isBlank_char (m : Mark) : isBlank m.char = false := by
  cases m <;> decide

theorem isBlank_of_mem (m : Mark) : ∀ c ∈ m.text, isBlank c = false := by
  intro c hc
  rw [char_of_mem hc]
  exact m.isBlank_char

theorem char_not_mem {m : Mark} (hm : m.text = [m.char]) {t : Text} (h : ¬ m.text <:+: t) :
    m.char ∉ t := by
  intro hc
  obtain ⟨l, r, rfl⟩ := List.append_of_mem hc
  refine h ⟨l, r, ?_⟩
  rw [hm, List.append_assoc]
  rfl

theorem solid (m : Mark) : m.text.Solid := by
  rcases m.text_eq with he | he <;> rw [he]
  · exact ⟨⟨m.char, [], rfl, m.isBlank_char⟩, ⟨[], m.char, rfl, m.isBlank_char⟩⟩
  · exact ⟨⟨m.char, [m.char], rfl, m.isBlank_char⟩, ⟨[m.char], m.char, rfl, m.isBlank_char⟩⟩

end Mark

inductive Operator where
  | or
  | and
deriving DecidableEq, Repr

namespace Operator

def mark : Operator → Mark
  | or => .or
  | and => .and

def tree : Operator → AccessPolicy → AccessPolicy → AccessPolicy
  | or => .or
  | and => .and

end Operator

inductive Token where
  | mark (m : Mark)
  | word (w : Text)
deriving DecidableEq, Repr

def Token.text : Token → Text
  | mark m => m.text
  | word w => w

/-! ## Derivations -/

/-- A word that may stand in an expression: not empty, without blanks at its ends or marks. -/
structure Plain (w : Text) : Prop where
  ne_nil : w ≠ []
  trim_eq : w.trim = w
  no_mark : ∀ m ∈ marks, ¬ m <:+: w

instance (w : Text) : Decidable (Plain w) :=
  decidable_of_iff (w ≠ [] ∧ w.trim = w ∧ ∀ m ∈ marks, ¬ m <:+: w)
    ⟨fun ⟨hne, htrim, hmarks⟩ => ⟨hne, htrim, hmarks⟩, fun ⟨hne, htrim, hmarks⟩ =>
      ⟨hne, htrim, hmarks⟩⟩

end Expression

/-- Attributes that an expression can hold: neither word ends as the mark after it starts. -/
structure Attribute.Legible (a : Attribute) : Prop where
  axis : Expression.Plain a.axis
  name : Expression.Plain a.name
  axis_end : a.axis.getLast? ≠ some (.char ':')
  name_end : a.name.getLast? ≠ some (.char '|') ∧ a.name.getLast? ≠ some (.char '&')

instance (a : Attribute) : Decidable a.Legible :=
  decidable_of_iff (Expression.Plain a.axis ∧ Expression.Plain a.name ∧
      a.axis.getLast? ≠ some (.char ':') ∧ a.name.getLast? ≠ some (.char '|') ∧
      a.name.getLast? ≠ some (.char '&'))
    ⟨fun ⟨haxis, hname, hends⟩ => ⟨haxis, hname, hends.1, hends.2⟩,
      fun h => ⟨h.axis, h.name, h.axis_end, h.name_end⟩⟩

theorem Attribute.Legible.name_end_ne {a : Attribute} (h : a.Legible) (op : Expression.Operator) :
    a.name.getLast? ≠ some op.mark.char := by
  cases op with
  | or => exact h.name_end.1
  | and => exact h.name_end.2

namespace Expression

inductive Category where
  | operand
  | expression

/-- The tokens of an operand or of an expression, with its tree. An operator takes the whole rest
as its right operand; parentheses leave nothing in the tree. -/
inductive Derives : Category → List Token → AccessPolicy → Prop
  | literal {a : Attribute} (h : a.Legible) :
    Derives .operand [.word a.axis, .mark .separator, .word a.name] (.attr a)
  | group {ts : List Token} {p : AccessPolicy} (h : Derives .expression ts p) :
    Derives .operand (.mark .opening :: (ts ++ [.mark .closing])) p
  | operand {ts : List Token} {p : AccessPolicy} (h : Derives .operand ts p) :
    Derives .expression ts p
  | operation {ts us : List Token} {p q : AccessPolicy} (op : Operator)
    (h : Derives .operand ts p) (h' : Derives .expression us q) :
    Derives .expression (ts ++ .mark op.mark :: us) (op.tree p q)

/-- The tokens in order, with blanks before, between and after them or none. -/
inductive Spaced : List Token → Text → Prop
  | nil {gap : Text} (h : gap.AllBlank) : Spaced [] gap
  | cons {gap t : Text} {ts : List Token} (token : Token) (h : gap.AllBlank) (ht : Spaced ts t) :
    Spaced (token :: ts) (gap ++ token.text ++ t)

/-- The text of the tokens without any blanks between them. -/
def written (ts : List Token) : Text :=
  ts.flatMap Token.text

theorem written_append (ts us : List Token) : written (ts ++ us) = written ts ++ written us :=
  List.flatMap_append

theorem spaced_written (ts : List Token) : Spaced ts (written ts) := by
  induction ts with
  | nil => exact .nil Text.allBlank_nil
  | cons token ts ih => exact .cons token Text.allBlank_nil ih

theorem Spaced.append {ts us : List Token} {t u : Text} (ht : Spaced ts t) (hu : Spaced us u) :
    Spaced (ts ++ us) (t ++ u) := by
  induction ht with
  | nil h =>
    cases hu with
    | nil h' => exact .nil (h.append h')
    | cons token h' hu =>
      rw [List.nil_append, ← List.append_assoc, ← List.append_assoc]
      exact .cons token (h.append h') hu
  | cons token h ht ih =>
    rw [List.append_assoc]
    exact .cons token h ih

/-! ## What the tokens of an expression are like -/

namespace Plain

variable {w : Text}

theorem solid (h : Plain w) : w.Solid :=
  Text.solid_of_trim_eq h.ne_nil h.trim_eq

theorem not_infix (h : Plain w) (m : Mark) : ¬ m.text <:+: w := by
  refine h.no_mark m.text ?_
  cases m <;> simp [Mark.text, marks]

theorem not_mem (h : Plain w) {m : Mark} (hm : m.text = [m.char]) : m.char ∉ w :=
  Mark.char_not_mem hm (h.not_infix m)

end Plain

/-- Whether a token may follow another: after a word a mark of another character than its last. -/
def Token.Follows : (before after : Token) → Prop
  | mark _, _ => True
  | word w, mark m => w.getLast? ≠ some m.char
  | word _, word _ => False

/-- Each word is plain, and each token may follow the one before it. -/
def Regular : List Token → Prop
  | [] => True
  | token :: ts =>
    (∀ w, token = .word w → Plain w) ∧ (∀ next ∈ ts.head?, token.Follows next) ∧ Regular ts

/-- Tokens after which an operand may stand complete. -/
def Ends (ts : List Token) : Prop :=
  ∀ next ∈ ts.head?, next = .mark .closing ∨ ∃ op : Operator, next = .mark op.mark

theorem regular_mark {m : Mark} {ts : List Token} (h : Regular ts) : Regular (.mark m :: ts) :=
  ⟨fun w hw => (by cases hw), fun next _ => trivial, h⟩

/-- In front of a rest that may end it, the tokens of an expression are regular. -/
theorem Derives.regular_append {c : Category} {ts : List Token} {p : AccessPolicy}
    (h : Derives c ts p) {rest : List Token} (hrest : Regular rest) (hends : Ends rest) :
    Regular (ts ++ rest) := by
  induction h generalizing rest with
  | @literal a ha =>
    refine ⟨fun w hw => ?_, fun next hnext => ?_, regular_mark ⟨fun w hw => ?_, ?_, hrest⟩⟩
    · cases hw
      exact ha.axis
    · cases hnext
      exact ha.axis_end
    · cases hw
      exact ha.name
    · intro next hnext
      rcases hends next hnext with rfl | ⟨op, rfl⟩
      · intro hlast
        have hmem : Mark.closing.char ∈ a.name := List.mem_of_getLast? hlast
        exact ha.name.not_mem rfl hmem
      · exact ha.name_end_ne op
  | group h ih =>
    rw [List.cons_append, List.append_assoc]
    refine regular_mark (ih (regular_mark hrest) ?_)
    intro next hnext
    cases hnext
    exact .inl rfl
  | operand h ih => exact ih hrest hends
  | operation op h h' ih ih' =>
    rw [List.append_assoc]
    refine ih (regular_mark (ih' hrest hends)) ?_
    intro next hnext
    cases hnext
    exact .inr ⟨op, rfl⟩

theorem Derives.regular {c : Category} {ts : List Token} {p : AccessPolicy} (h : Derives c ts p) :
    Regular ts := by
  have hrest : Regular (ts ++ []) := h.regular_append trivial fun next hnext => by cases hnext
  rwa [List.append_nil] at hrest

end Expression

end AttributeAccess
