import AttributeAccess.Text.CodePoint

/-!
# Text

A text is a list of code points: lengths and positions count code points, and texts are ordered
code point by code point. `cut?` finds the first occurrence of a mark, `splitOn` all of them from
left to right without overlap, and `joinWith` puts the parts together again.

A text may hold surrogates that stand alone. Names and texts of the library are of this kind; what
is written in UTF-8 or read from it is `WellFormed`, it holds characters only.
-/

namespace AttributeAccess

abbrev Text := List CodePoint

/-- The text of some characters. -/
def Text.ofChars (cs : List Char) : Text :=
  cs.map .char

end AttributeAccess

def String.toText (s : String) : AttributeAccess.Text :=
  .ofChars s.toList

@[simp]
theorem String.toText_inj {s t : String} : s.toText = t.toText ↔ s = t := by
  constructor
  · intro h
    have hchars : s.toList = t.toList :=
      (List.map_inj_right fun _ _ => AttributeAccess.CodePoint.char.inj).1 h
    exact String.toList_inj.1 hchars
  · rintro rfl
    rfl

namespace AttributeAccess

/-- By name, so that all tests of membership rest on the same fact. -/
instance instLawfulBEqText : LawfulBEq Text := inferInstance

namespace Text

/-- The text before and the text after the first occurrence of `mark`. -/
def cut? (mark : Text) : Text → Option (Text × Text)
  | [] => none
  | c :: t =>
    match mark.isPrefixOf? (c :: t) with
    | some after => some ([], after)
    | none => (cut? mark t).map fun (before, after) => (c :: before, after)

/-- Where the first occurrence of `mark` starts. -/
def position? (mark t : Text) : Option Nat :=
  (cut? mark t).map fun (before, _) => before.length

def occursIn (mark t : Text) : Bool :=
  (cut? mark t).isSome

theorem eq_append_of_isPrefixOf? {mark t after : Text} (h : mark.isPrefixOf? t = some after) :
    t = mark ++ after := by
  induction mark generalizing t with
  | nil =>
    cases t <;> exact Option.some.inj h
  | cons m mark ih =>
    cases t with
    | nil => cases h
    | cons c t =>
      have h : (if m == c then mark.isPrefixOf? t else none) = some after := h
      split at h
      · next hc => rw [ih h, beq_iff_eq.1 hc]; rfl
      · simp at h

/-- A cut loses nothing but names the mark it was made at. -/
theorem eq_append_of_cut? {mark t before after : Text} (h : cut? mark t = some (before, after)) :
    t = before ++ mark ++ after := by
  induction t generalizing before with
  | nil => simp [cut?] at h
  | cons c t ih =>
    rw [cut?] at h
    split at h
    · next hp =>
      simp only [Option.some.injEq, Prod.mk.injEq] at h
      obtain ⟨rfl, rfl⟩ := h
      simpa using eq_append_of_isPrefixOf? hp
    · obtain ⟨⟨b, a⟩, hcut, hba⟩ := Option.map_eq_some_iff.1 h
      simp only [Prod.mk.injEq] at hba
      obtain ⟨rfl, rfl⟩ := hba
      simp [ih hcut]

theorem length_lt_of_cut? {mark t before after : Text} (hm : mark ≠ [])
    (h : cut? mark t = some (before, after)) : after.length < t.length := by
  have hlen := congrArg List.length (eq_append_of_cut? h)
  have := List.length_pos_iff.2 hm
  simp only [List.length_append] at hlen
  omega

theorem position?_add_length_le {mark t : Text} {n : Nat} (h : position? mark t = some n) :
    n + mark.length ≤ t.length := by
  obtain ⟨⟨before, after⟩, hcut, rfl⟩ := Option.map_eq_some_iff.1 h
  have := congrArg List.length (eq_append_of_cut? hcut)
  simp only [List.length_append] at this
  simp only; omega

/-- Cuts a text at the first `count` occurrences of `mark`. -/
def splitTimes (mark : Text) : (count : Nat) → Text → List Text
  | 0, t => [t]
  | count + 1, t =>
    match cut? mark t with
    | none => [t]
    | some (before, after) => before :: splitTimes mark count after

/-- The parts of a text around the occurrences of `mark`. -/
def splitOn (mark t : Text) : List Text :=
  splitTimes mark t.length t

def joinWith (mark : Text) : List Text → Text
  | [] => []
  | [t] => t
  | t :: ts => t ++ mark ++ joinWith mark ts

theorem joinWith_cons {mark t : Text} {ts : List Text} (h : ts ≠ []) :
    joinWith mark (t :: ts) = t ++ mark ++ joinWith mark ts := by
  cases ts with
  | nil => exact absurd rfl h
  | cons => rfl

theorem splitTimes_ne_nil (mark : Text) (n : Nat) (t : Text) : splitTimes mark n t ≠ [] := by
  cases n with
  | zero => simp [splitTimes]
  | succ n => rw [splitTimes]; split <;> simp

theorem joinWith_splitTimes (mark : Text) (n : Nat) (t : Text) :
    joinWith mark (splitTimes mark n t) = t := by
  induction n generalizing t with
  | zero => rfl
  | succ n ih =>
    rw [splitTimes]
    split
    · rfl
    · next h => rw [joinWith_cons (splitTimes_ne_nil mark n _), ih, ← eq_append_of_cut? h]

/-- Splitting loses nothing but the marks. -/
theorem joinWith_splitOn (mark t : Text) : joinWith mark (splitOn mark t) = t :=
  joinWith_splitTimes mark t.length t

theorem splitTimes_eq_of_length_le {mark : Text} (hm : mark ≠ []) {m n : Nat} {t : Text}
    (h : t.length ≤ m) (h' : t.length ≤ n) : splitTimes mark m t = splitTimes mark n t := by
  induction m generalizing n t with
  | zero =>
    have : t = [] := List.eq_nil_of_length_eq_zero (by omega)
    subst this
    cases n <;> rfl
  | succ m ih =>
    cases n with
    | zero =>
      have : t = [] := List.eq_nil_of_length_eq_zero (by omega)
      subst this
      rfl
    | succ n =>
      rw [splitTimes, splitTimes]
      split
      · rfl
      · next hc =>
        have := length_lt_of_cut? hm hc
        rw [ih (n := n) (by omega) (by omega)]

theorem splitOn_of_cut?_eq_none {mark t : Text} (h : cut? mark t = none) :
    splitOn mark t = [t] := by
  cases t with
  | nil => rfl
  | cons c t => simp [splitOn, splitTimes, h]

theorem splitOn_of_cut?_eq_some {mark t before after : Text} (hm : mark ≠ [])
    (h : cut? mark t = some (before, after)) : splitOn mark t = before :: splitOn mark after := by
  cases t with
  | nil => simp [cut?] at h
  | cons c t =>
    have := length_lt_of_cut? hm h
    simp only [splitOn, List.length_cons, splitTimes, h]
    rw [splitTimes_eq_of_length_le hm (n := after.length) (by simp at this; omega) (by omega)]

/-- Every kind of line end as a line feed. -/
def withLineFeeds : Text → Text
  | .char '\r' :: .char '\n' :: t => .char '\n' :: withLineFeeds t
  | .char '\r' :: t => .char '\n' :: withLineFeeds t
  | c :: t => c :: withLineFeeds t
  | [] => []

/-- Whether `a` comes no later than `b`. -/
def notAfter (a b : Text) : Bool :=
  !decide (b < a)

def sorted (ts : List Text) : List Text :=
  ts.mergeSort notAfter

end Text

end AttributeAccess
