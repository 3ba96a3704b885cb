import AttributeAccess.Attribute
import AttributeAccess.Text.Blank

/-!
# Blanks in an expression

Blanks at the ends of an expression and around its marks mean nothing; blanks inside a name
belong to the name. The marks are treated one after another, each in the text that the one
before it left.
-/

namespace AttributeAccess.Expression

def openMark : Text := [.char '(']

def closeMark : Text := [.char ')']

def orMark : Text := [.char '|', .char '|']

def andMark : Text := [.char '&', .char '&']

def marks : List Text := [openMark, closeMark, orMark, andMark, Attribute.separator]

/-- Without the blanks around one mark and at the two ends. -/
def tighten (mark t : Text) : Text :=
  Text.joinWith mark ((Text.splitOn mark t).map Text.trim)

theorem length_joinWith_trim_le (mark : Text) (ts : List Text) :
    (Text.joinWith mark (ts.map Text.trim)).length ≤ (Text.joinWith mark ts).length := by
  induction ts with
  | nil => simp [Text.joinWith]
  | cons t ts ih =>
    have ht := Text.length_trim_le t
    cases ts with
    | nil => simpa [Text.joinWith] using ht
    | cons u us =>
      rw [List.map_cons, Text.joinWith_cons (by simp), Text.joinWith_cons (by simp)]
      simp only [List.length_append]
      omega

theorem length_tighten_le (mark t : Text) : (tighten mark t).length ≤ t.length := by
  have h := length_joinWith_trim_le mark (Text.splitOn mark t)
  rwa [Text.joinWith_splitOn] at h

def withoutBlanks (t : Text) : Text :=
  marks.foldl (fun t mark => tighten mark t) t

theorem length_withoutBlanks_le (t : Text) : (withoutBlanks t).length ≤ t.length := by
  have h : ∀ (ms : List Text) (t : Text),
      (ms.foldl (fun t mark => tighten mark t) t).length ≤ t.length := by
    intro ms
    induction ms with
    | nil => simp
    | cons m ms ih =>
      intro t
      have := ih (tighten m t)
      have := length_tighten_le m t
      simp only [List.foldl_cons]
      omega
  exact h marks t

end AttributeAccess.Expression
