import AttributeAccess.AccessPolicy.Basic
import AttributeAccess.Fault

/-!
# Writing expressions

A policy is written with its operators between blanks. An operand that is no literal stands in
parentheses, so the text reads back as the same tree. `all` has no text form.
-/

namespace AttributeAccess.AccessPolicy

/-- An operand with the text `t`. -/
def operandText (operand : AccessPolicy) (t : Text) : Text :=
  match operand with
  | attr _ => t
  | _ => .char '(' :: t ++ [.char ')']

def toExpression : AccessPolicy → Except Fault Text
  | all => .error (.expression .formless)
  | attr a => .ok a.text
  | and l r => do
    let lt ← l.toExpression
    let rt ← r.toExpression
    .ok (l.operandText lt ++ " && ".toText ++ r.operandText rt)
  | or l r => do
    let lt ← l.toExpression
    let rt ← r.toExpression
    .ok (l.operandText lt ++ " || ".toText ++ r.operandText rt)

end AttributeAccess.AccessPolicy
