import AttributeAccess.AccessPolicy.Basic
import AttributeAccess.Expression.Groups

/-!
# Reading expressions

Operators have no precedence. The first operand is a literal or a group in parentheses; the
operator after it takes the whole remainder as its right operand, so `A::a && B::b || C::c` reads
as `A::a && (B::b || C::c)`.

`shape` shows the outermost level only, `parse` descends into the operands, and `parseWithin`
does the same with a bound on the nesting: an operator costs two levels, a pair of parentheses
one.
-/

namespace AttributeAccess

namespace Expression

/-- The outermost level of an expression. -/
inductive Shape where
  | literal (a : Attribute)
  | group (inner : Text)
  | operation (left operator right : Text)
deriving DecidableEq, Repr

def Shape.ofParts (p : Parts) : Shape :=
  match p.next? with
  | none => .group p.left
  | some next => .operation p.left next.operator next.right

/-- Where the first operator stands. -/
def operatorPosition? (t : Text) : Option Nat :=
  match Text.position? orMark t, Text.position? andMark t with
  | some p, some q => some (min p q)
  | some p, none => some p
  | none, q => q

def literal (t : Text) : Except Fault Attribute :=
  match Attribute.ofText? t with
  | some a => .ok a
  | none => .error (.expression (.malformedLiteral t))

/-- The shape of an expression without superfluous blanks. -/
def shapeOf (t : Text) : Except Fault Shape :=
  if !Text.occursIn Attribute.separator t then .error (.expression (.withoutSeparator t))
  else
    match t with
    | .char '(' :: inner =>
      if !inner.contains (.char ')') then .error (.expression (.closingMissing t inner))
      else do
        let position ← closing inner
        .ok (.ofParts (← cutAt inner position))
    | _ =>
      match operatorPosition? t with
      | none => (literal t).map .literal
      | some position => (cutAt t position).map .ofParts

def shape (t : Text) : Except Fault Shape :=
  shapeOf (withoutBlanks t)

/-- The tree of an operator; any other than the two known ones is refused. -/
def connect (operator : Text) (l r : AccessPolicy) : Except Fault AccessPolicy :=
  if operator = andMark then .ok (.and l r)
  else if operator = orMark then .ok (.or l r)
  else .error (.unsupportedOperator operator)

/-! ## The parts of an expression are shorter than it -/

theorem operatorPosition?_lt {t : Text} {n : Nat} (h : operatorPosition? t = some n) :
    n < t.length := by
  have ho : ∀ p, Text.position? orMark t = some p → p < t.length := fun p hp => by
    have := Text.position?_add_length_le hp
    simp only [orMark, List.length_cons, List.length_nil] at this
    omega
  have ha : ∀ p, Text.position? andMark t = some p → p < t.length := fun p hp => by
    have := Text.position?_add_length_le hp
    simp only [andMark, List.length_cons, List.length_nil] at this
    omega
  unfold operatorPosition? at h
  split at h
  · next p q hp hq =>
    have := ho p hp
    simp only [Option.some.injEq] at h
    omega
  · next p hp _ =>
    simp only [Option.some.injEq] at h
    exact h ▸ ho p hp
  · exact ha n h

/-- The parts of a shape are shorter than its text. -/
def Shape.Below (n : Nat) : Shape → Prop
  | literal _ => True
  | group inner => inner.length < n
  | operation left _ right => left.length < n ∧ right.length < n

theorem below_ofParts {p : Parts} {n : Nat} (hl : p.left.length < n)
    (hr : ∀ next, p.next? = some next → next.right.length < n) : (Shape.ofParts p).Below n := by
  unfold Shape.ofParts
  split
  · exact hl
  · next next hn => exact ⟨hl, hr next hn⟩

theorem below_of_shapeOf {t : Text} {s : Shape} (h : shapeOf t = .ok s) : s.Below t.length := by
  unfold shapeOf at h
  split at h
  · cases h
  · split at h
    · next inner _ =>
      split at h
      · cases h
      · cases hp : closing inner with
        | error e => rw [hp] at h; cases h
        | ok position =>
          cases hc : cutAt inner position with
          | error e => rw [hp] at h; simp only [bind, Except.bind, hc] at h; cases h
          | ok parts =>
            rw [hp] at h
            simp only [bind, Except.bind, hc] at h
            cases h
            obtain ⟨hle, hl, hr⟩ := cutAt_eq_ok hc
            refine below_ofParts (by simp; omega) fun next hn => ?_
            have := hr next hn
            simp only [List.length_cons]
            omega
    · split at h
      · cases hl : literal t with
        | error e => rw [hl] at h; cases h
        | ok a => rw [hl] at h; cases h; trivial
      · next position hp =>
        cases hc : cutAt t position with
        | error e => rw [hc] at h; cases h
        | ok parts =>
          rw [hc] at h
          cases h
          obtain ⟨hle, hl, hr⟩ := cutAt_eq_ok hc
          have := operatorPosition?_lt hp
          refine below_ofParts (by omega) fun next hn => ?_
          have := hr next hn
          omega

theorem Shape.Below.mono {m n : Nat} {s : Shape} (h : s.Below m) (hmn : m ≤ n) : s.Below n := by
  cases s with
  | literal => trivial
  | group => exact Nat.lt_of_lt_of_le h hmn
  | operation => exact ⟨Nat.lt_of_lt_of_le h.1 hmn, Nat.lt_of_lt_of_le h.2 hmn⟩

theorem below_of_shape {t : Text} {s : Shape} (h : shape t = .ok s) : s.Below t.length :=
  (below_of_shapeOf h).mono (length_withoutBlanks_le t)

/-! ## Reading -/

/-- Reads an expression level by level, where `shape` shows one level. -/
def descend (shape : Text → Except Fault Shape)
    (below : ∀ {t s}, shape t = .ok s → s.Below t.length) (t : Text) :
    Except Fault AccessPolicy :=
  match h : shape t with
  | .error fault => .error fault
  | .ok (.literal a) => .ok (.attr a)
  | .ok (.group inner) =>
    have := below h
    descend shape below inner
  | .ok (.operation left operator right) =>
    have := below h
    match descend shape below left with
    | .error fault => .error fault
    | .ok l =>
      match descend shape below right with
      | .error fault => .error fault
      | .ok r => connect operator l r
termination_by t.length
decreasing_by
  · exact this
  · exact this.1
  · exact this.2

/-- Reads an expression, however deep it is nested. -/
def parse (t : Text) : Except Fault AccessPolicy :=
  descend shape below_of_shape t

inductive Refusal where
  | tooDeep
  | fault (f : Fault)

/-- Like `descend`, with at most `limit` levels. -/
def descendWithin (shape : Text → Except Fault Shape) (limit : Nat) (t : Text) :
    Except Refusal AccessPolicy :=
  match limit with
  | 0 => .error .tooDeep
  | limit + 1 =>
    match shape t with
    | .error f => .error (.fault f)
    | .ok (.literal a) => .ok (.attr a)
    | .ok (.group inner) => descendWithin shape limit inner
    | .ok (.operation left operator right) =>
      match descendWithin shape (limit - 1) left with
      | .error refusal => .error refusal
      | .ok l =>
        match descendWithin shape (limit - 1) right with
        | .error refusal => .error refusal
        | .ok r => (connect operator l r).mapError .fault
termination_by limit
decreasing_by all_goals omega

/-- Reads an expression that is not nested beyond `limit`. -/
def parseWithin (limit : Nat) (t : Text) : Except Fault AccessPolicy :=
  match descendWithin shape limit t with
  | .ok p => .ok p
  | .error .tooDeep => .error (.expression (.parsedTooDeep t.length))
  | .error (.fault f) => .error f

end Expression

def AccessPolicy.ofExpression (t : Text) : Except Fault AccessPolicy :=
  Expression.parseWithin nestingLimit t

end AttributeAccess
