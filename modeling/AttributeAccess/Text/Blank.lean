import AttributeAccess.Text.Basic

/-!
# Blank characters

The blank characters are those of the Unicode property White_Space together with the four
information separators U+001C to U+001F. The zero-width characters U+200B and U+FEFF and the
Mongolian vowel separator U+180E are not blank.
-/

namespace AttributeAccess

/-- The Unicode property White_Space. -/
def isWhiteSpace (c : CodePoint) : Bool :=
  let n := c.toNat
  (9 ≤ n && n ≤ 0xD) || n == 0x20 || n == 0x85 || n == 0xA0 || n == 0x1680 ||
    (0x2000 ≤ n && n ≤ 0x200A) || n == 0x2028 || n == 0x2029 || n == 0x202F || n == 0x205F ||
    n == 0x3000

def isInformationSeparator (c : CodePoint) : Bool :=
  0x1C ≤ c.toNat && c.toNat ≤ 0x1F

def isBlank (c : CodePoint) : Bool :=
  isWhiteSpace c || isInformationSeparator c

namespace Text

/-- A text without the characters of a class at its end. -/
def dropEndWhile (p : CodePoint → Bool) (t : Text) : Text :=
  (t.reverse.dropWhile p).reverse

def trimStart (t : Text) : Text :=
  t.dropWhile isBlank

def trimEnd (t : Text) : Text :=
  t.dropEndWhile isBlank

/-- A text without the blanks at its two ends. -/
def trim (t : Text) : Text :=
  trimEnd (trimStart t)

theorem length_trim_le (t : Text) : t.trim.length ≤ t.length := by
  have hs : t.trimStart.length ≤ t.length := (List.dropWhile_sublist _).length_le
  have he := (List.dropWhile_sublist (l := t.trimStart.reverse) isBlank).length_le
  simp only [List.length_reverse] at he
  simp only [trim, trimEnd, dropEndWhile, List.length_reverse]
  omega

end Text

end AttributeAccess
