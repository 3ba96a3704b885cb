import AttributeAccess.Fault
import AttributeAccess.Expression.Spaces

/-!
# Groups

`closing` finds the parenthesis that closes a group already opened; `cutAt` takes an expression
apart at a place into what stands before it, an operator of two characters and the rest. A closing
parenthesis at that place is left out.
-/

namespace AttributeAccess.Expression

/-- Where the first parenthesis stands that closes more than `depth` groups. -/
def closingFrom? (depth : Nat) : Text → Option Nat
  | [] => none
  | c :: t =>
    if c = .char '(' then (closingFrom? (depth + 1) t).map (· + 1)
    else if c = .char ')' then
      match depth with
      | 0 => some 0
      | depth + 1 => (closingFrom? depth t).map (· + 1)
    else (closingFrom? depth t).map (· + 1)

def closing (t : Text) : Except Fault Nat :=
  match closingFrom? 0 t with
  | some position => .ok position
  | none => .error (.expression (.closingUnmatched t))

/-- The operator after the left part, and what follows it. -/
structure Continuation where
  operator : Text
  right : Text
deriving DecidableEq, Repr

structure Parts where
  left : Text
  next? : Option Continuation
deriving DecidableEq, Repr

/-- Takes an operator off the front of `rest`, which starts at `position`. -/
def continueAt (whole : Text) (position : Nat) (rest : Text) :
    Except Fault (Option Continuation) :=
  match rest with
  | [] => .ok none
  | a :: b :: right => .ok (some ⟨[a, b], right⟩)
  | [_] => .error (.expression (.operatorBeyondEnd whole (position + 2)))

def cutAt (t : Text) (position : Nat) : Except Fault Parts :=
  if t.length < position then .error (.expression (.splitBeyondEnd t position))
  else
    let next := match t.drop position with
      | .char ')' :: rest => continueAt t (position + 1) rest
      | rest => continueAt t position rest
    next.map (⟨t.take position, ·⟩)

theorem length_of_continueAt {whole rest : Text} {position : Nat} {next : Continuation}
    (h : continueAt whole position rest = .ok (some next)) :
    rest.length = next.right.length + 2 := by
  unfold continueAt at h
  split at h
  · simp at h
  · simp only [Except.ok.injEq, Option.some.injEq] at h
    subst h
    rfl
  · cases h

theorem cutAt_eq_ok {t : Text} {position : Nat} {p : Parts} (h : cutAt t position = .ok p) :
    position ≤ t.length ∧ p.left.length = position ∧
      ∀ next, p.next? = some next → next.right.length + position + 2 ≤ t.length := by
  unfold cutAt at h
  split at h
  · cases h
  · next hle =>
    have hdrop : (t.drop position).length = t.length - position := List.length_drop
    have hleft : (t.take position).length = position := by simp; omega
    refine ⟨by omega, ?_⟩
    dsimp only at h
    split at h
    · next rest hrest =>
      cases hc : continueAt t (position + 1) rest with
      | error e => rw [hc] at h; cases h
      | ok next =>
        rw [hc] at h; cases h
        refine ⟨hleft, ?_⟩
        rintro n rfl
        have := length_of_continueAt hc
        simp only [hrest, List.length_cons] at hdrop
        omega
    · cases hc : continueAt t position (t.drop position) with
      | error e => rw [hc] at h; cases h
      | ok next =>
        rw [hc] at h; cases h
        refine ⟨hleft, ?_⟩
        rintro n rfl
        have := length_of_continueAt hc
        omega

end AttributeAccess.Expression
