import AttributeAccess.Text.Basic

/-!
# Well-formed texts

A text without surrogates is well-formed. It is a list of characters (`chars?`), so it can be
encoded. Any other text can only be `replaced`: each of its surrogates gives way to three
replacement characters, one for each byte that it would take.
-/

namespace AttributeAccess.Text

def WellFormed (t : Text) : Prop :=
  ∀ c ∈ t, c.isSurrogate = false

instance (t : Text) : Decidable t.WellFormed :=
  inferInstanceAs (Decidable (∀ c ∈ t, _))

/-- The characters of a well-formed text. -/
def chars? (t : Text) : Option (List Char) :=
  t.mapM CodePoint.char?

def replacement : CodePoint := .char '\ufffd'

def replaced (t : Text) : Text :=
  t.flatMap fun c => if c.isSurrogate then [replacement, replacement, replacement] else [c]

end AttributeAccess.Text
