import AttributeAccess.Text.Basic
import Mathlib.Data.List.DropRight

/-!
# Rows at the end of a text

`row c t` counts how often `c` stands at the end of `t` without a break. A mark of one character or
of one character twice is found at the end of a text according to this number alone.
-/

namespace AttributeAccess.Text

/-- How often the character stands at the end of the text without a break. -/
def row (c : CodePoint) (t : Text) : Nat :=
  (t.rtakeWhile (· == c)).length

variable {c : CodePoint}

@[simp] theorem row_nil : row c [] = 0 := rfl

theorem row_concat (t : Text) (d : CodePoint) :
    row c (t ++ [d]) = if d = c then row c t + 1 else 0 := by
  unfold row
  rw [List.rtakeWhile_concat]
  by_cases hd : d = c
  · simp [hd]
  · simp [hd]

theorem row_append (y a : Text) :
    row c (y ++ a) = if row c a = a.length then row c y + a.length else row c a := by
  induction a using List.reverseRecOn with
  | nil => simp
  | append_singleton a d ih =>
    rw [← List.append_assoc, row_concat, row_concat, ih, List.length_append, List.length_singleton]
    by_cases hd : d = c
    · rw [if_pos hd, if_pos hd]
      by_cases ha : row c a = a.length
      · rw [if_pos ha, if_pos (by rw [ha]), Nat.add_assoc]
      · rw [if_neg ha, if_neg (by omega)]
    · rw [if_neg hd, if_neg hd, if_neg (by omega)]

theorem row_eq_zero {t : Text} (h : t.getLast? ≠ some c) : row c t = 0 := by
  rcases List.eq_nil_or_concat' t with rfl | ⟨u, d, rfl⟩
  · rfl
  · rw [row_concat, if_neg]
    rintro rfl
    exact h List.getLast?_concat

theorem getLast?_of_row_pos {t : Text} (h : 0 < row c t) : t.getLast? = some c := by
  by_contra hlast
  rw [row_eq_zero hlast] at h
  exact Nat.lt_irrefl 0 h

theorem row_append_replicate {x : Text} (hx : x.getLast? ≠ some c) (k : Nat) :
    row c (x ++ List.replicate k c) = k := by
  induction k with
  | zero => rw [List.replicate_zero, List.append_nil, row_eq_zero hx]
  | succ k ih =>
    rw [List.replicate_succ', ← List.append_assoc, row_concat, if_pos rfl, ih]

/-- A text is its row and what stands in front of it. -/
theorem exists_row (c : CodePoint) (t : Text) :
    ∃ x, t = x ++ List.replicate (row c t) c ∧ x.getLast? ≠ some c := by
  induction t using List.reverseRecOn with
  | nil => exact ⟨[], rfl, nofun⟩
  | append_singleton t d ih =>
    by_cases hd : d = c
    · obtain ⟨x, ht, hx⟩ := ih
      refine ⟨x, ?_, hx⟩
      rw [row_concat, if_pos hd, List.replicate_succ', ← List.append_assoc, ← ht, hd]
    · refine ⟨t ++ [d], ?_, ?_⟩
      · rw [row_concat, if_neg hd, List.replicate_zero, List.append_nil]
      · rw [List.getLast?_concat]
        exact fun h => hd (Option.some.inj h)

end AttributeAccess.Text
