import AttributeAccess.Text.Digits
import AttributeAccess.Text.Printing

/-!
# Quoted text

A text in quotes on one line, with everything that does not print written as an escape. Single
quotes are used, or double quotes for a text that holds a single quote and no double one.
-/

namespace AttributeAccess.Text

/-- How one character stands between the quotes `quote`. -/
def quotedChar (quote c : CodePoint) : Text :=
  let n := c.toNat
  if c = quote ∨ c = .char '\\' then [.char '\\', c]
  else if c = .char '\n' then [.char '\\', .char 'n']
  else if c = .char '\r' then [.char '\\', .char 'r']
  else if c = .char '\t' then [.char '\\', .char 't']
  else if 0x20 ≤ n ∧ n < 0x7F then [c]
  else if isPrinting c then [c]
  else if n < 0x100 then .char '\\' :: .char 'x' :: Hex.padded 2 n
  else if n < 0x10000 then .char '\\' :: .char 'u' :: Hex.padded 4 n
  else .char '\\' :: .char 'U' :: Hex.padded 8 n

def quoteFor (t : Text) : CodePoint :=
  if t.contains (.char '\'') && !t.contains (.char '"') then .char '"' else .char '\''

def quoted (t : Text) : Text :=
  quoteFor t :: t.flatMap (quotedChar (quoteFor t)) ++ [quoteFor t]

end AttributeAccess.Text
