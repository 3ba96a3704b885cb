import AttributeAccess.Proofs.Text.WellFormed
import AttributeAccess.Text.Digits
import Mathlib.Algebra.Group.Nat.Defs
import Mathlib.Data.List.TakeWhile

/-!
# Digits read back

`Digits.ofNat` writes digits only, starts with a zero for zero alone, needs at most `k` digits
below `10 ^ k`, and `Digits.toNat` gives the number back. Two hexadecimal digits below sixteen are
read back by `Hex.value?`. Digits are no surrogates.
-/

namespace AttributeAccess

namespace Digits

theorem digit_toNat {n : Nat} (h : n < 10) : (digit n).toNat = 48 + n := by
  have all : ∀ n < 10, (digit n).toNat = 48 + n := by decide
  exact all n h

theorem isDigit_digit {n : Nat} (h : n < 10) : isDigit (digit n) = true := by
  simp [isDigit, digit_toNat h]
  omega

theorem isDigit_of_mem_ofNat (n : Nat) : ∀ c ∈ ofNat n, isDigit c = true := by
  induction n using Nat.strong_induction_on with
  | _ n ih =>
    intro c hc
    rw [ofNat] at hc
    split at hc
    · next h =>
      rw [List.mem_singleton] at hc
      exact hc ▸ isDigit_digit h
    · next h =>
      rcases List.mem_append.1 hc with hc | hc
      · exact ih (n / 10) (by omega) c hc
      · rw [List.mem_singleton] at hc
        exact hc ▸ isDigit_digit (by omega)

theorem ofNat_ne_nil (n : Nat) : ofNat n ≠ [] := by
  rw [ofNat]
  split <;> simp

theorem toNat_ofNat (n : Nat) : toNat (ofNat n) = n := by
  induction n using Nat.strong_induction_on with
  | _ n ih =>
    rw [ofNat]
    split
    · next h => simp [toNat, digit_toNat h]
    · next h =>
      have hread := ih (n / 10) (by omega)
      simp only [toNat, List.foldl_append, List.foldl_cons, List.foldl_nil] at hread ⊢
      rw [hread, digit_toNat (by omega)]
      omega

/-- The first digit is a zero only if the number is zero. -/
theorem ofNat_eq_cons (n : Nat) :
    ofNat n = "0".toText ∨ ∃ c ds, ofNat n = c :: ds ∧ c ≠ .char '0' := by
  induction n using Nat.strong_induction_on with
  | _ n ih =>
    rw [ofNat]
    split
    · next h =>
      have all : ∀ n < 10, [digit n] = "0".toText ∨ digit n ≠ .char '0' := by decide
      rcases all n h with h0 | h0
      · exact .inl h0
      · exact .inr ⟨digit n, [], rfl, h0⟩
    · next h =>
      rcases ih (n / 10) (by omega) with hz | ⟨c, ds, hc, hne⟩
      · have hread := toNat_ofNat (n / 10)
        rw [hz] at hread
        have hzero : toNat "0".toText = 0 := by decide
        omega
      · exact .inr ⟨c, ds ++ [digit (n % 10)], by rw [hc]; rfl, hne⟩

theorem length_ofNat_le {n k : Nat} (h : n < 10 ^ (k + 1)) : (ofNat n).length ≤ k + 1 := by
  induction k generalizing n with
  | zero =>
    rw [ofNat, if_pos (by omega)]
    simp
  | succ k ih =>
    rw [ofNat]
    split
    · simp
    · have hle := ih (n := n / 10) (by rw [Nat.pow_succ] at h; omega)
      rw [List.length_append, List.length_singleton]
      omega

@[simp] theorem wellFormed_ofNat (n : Nat) : (ofNat n).WellFormed := by
  induction n using Nat.strong_induction_on with
  | _ n ih =>
    rw [ofNat]
    split
    · exact Text.wellFormed_cons.2 ⟨rfl, Text.wellFormed_nil⟩
    · exact Text.wellFormed_append.2
        ⟨ih (n / 10) (by omega), Text.wellFormed_cons.2 ⟨rfl, Text.wellFormed_nil⟩⟩

@[simp] theorem wellFormed_ofInt (i : Int) : (ofInt i).WellFormed := by
  cases i with
  | ofNat n => exact wellFormed_ofNat n
  | negSucc n => exact Text.wellFormed_cons.2 ⟨rfl, wellFormed_ofNat (n + 1)⟩

end Digits

namespace Hex

theorem value?_digit {n : Nat} (h : n < 16) : value? (Digits.digit n) = some n := by
  have all : ∀ n < 16, value? (Digits.digit n) = some n := by decide
  exact all n h

@[simp] theorem wellFormed_padded (width n : Nat) : (padded width n).WellFormed := by
  induction width generalizing n with
  | zero => exact Text.wellFormed_nil
  | succ width ih =>
    exact Text.wellFormed_append.2 ⟨ih (n / 16), Text.wellFormed_cons.2 ⟨rfl, Text.wellFormed_nil⟩⟩

end Hex

end AttributeAccess
