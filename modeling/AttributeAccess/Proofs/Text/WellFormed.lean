import AttributeAccess.Text.WellFormed
import Mathlib.Order.Defs.LinearOrder

/-!
# Code points and well-formed texts

A code point is determined by its number, so code points are in a linear order. A text is
well-formed if and only if it is the text of some characters, and these are its own.
-/

namespace AttributeAccess

namespace CodePoint

theorem ofNat_toNat (c : CodePoint) : ofNat c.toNat = c := by
  cases c with
  | char c =>
    have hc : ¬ (0xD800 ≤ c.toNat ∧ c.toNat ≤ 0xDFFF) := by
      have := c.valid
      simp only [UInt32.isValidChar, Nat.isValidChar, Char.toNat] at *
      omega
    simp only [toNat, ofNat, dif_neg hc, Char.ofNat_toNat]
  | surrogate offset =>
    obtain ⟨offset, hoffset⟩ := offset
    have h : 0xD800 ≤ 0xD800 + offset ∧ 0xD800 + offset ≤ 0xDFFF := by omega
    simp only [toNat, ofNat, dif_pos h, Nat.add_sub_cancel_left]

theorem toNat_injective : Function.Injective toNat :=
  Function.LeftInverse.injective ofNat_toNat

instance : LE CodePoint := ⟨fun a b => a.toNat ≤ b.toNat⟩

instance : Std.IsLinearOrder CodePoint where
  le_refl a := Nat.le_refl a.toNat
  le_trans _ _ _ := Nat.le_trans
  le_antisymm _ _ hab hba := toNat_injective (Nat.le_antisymm hab hba)
  le_total a b := Nat.le_total a.toNat b.toNat

instance : Std.LawfulOrderLT CodePoint where
  lt_iff a b := Nat.lt_iff_le_and_not_ge (m := a.toNat) (n := b.toNat)

@[simp] theorem isSurrogate_char (c : Char) : (char c).isSurrogate = false := rfl

theorem isSurrogate_eq_false_iff {c : CodePoint} : c.isSurrogate = false ↔ ∃ d, c = char d := by
  cases c <;> simp [isSurrogate]

theorem isSurrogate_ofNat {n : Nat} (h : n < 0xD800 ∨ 0xDFFF < n) :
    (ofNat n).isSurrogate = false := by
  rw [ofNat, dif_neg (by omega)]
  rfl

end CodePoint

namespace Text

@[simp] theorem wellFormed_nil : WellFormed [] := by
  intro c hc
  cases hc

@[simp] theorem wellFormed_cons {c : CodePoint} {t : Text} :
    WellFormed (c :: t) ↔ c.isSurrogate = false ∧ WellFormed t :=
  List.forall_mem_cons

@[simp] theorem wellFormed_append {t u : Text} :
    WellFormed (t ++ u) ↔ WellFormed t ∧ WellFormed u :=
  List.forall_mem_append

theorem WellFormed.of_subset {t u : Text} (h : WellFormed u) (hsub : t ⊆ u) : WellFormed t :=
  fun c hc => h c (hsub hc)

theorem WellFormed.of_suffix {t u : Text} (h : WellFormed u) (hsuffix : t <:+ u) : WellFormed t :=
  h.of_subset hsuffix.subset

@[simp] theorem wellFormed_ofChars (cs : List Char) : (ofChars cs).WellFormed := by
  intro c hc
  obtain ⟨d, -, rfl⟩ := List.mem_map.1 hc
  rfl

theorem ofChars_injective {cs ds : List Char} (h : ofChars cs = ofChars ds) : cs = ds :=
  (List.map_inj_right fun _ _ => CodePoint.char.inj).1 h

theorem wellFormed_iff {t : Text} : t.WellFormed ↔ ∃ cs, t = ofChars cs := by
  constructor
  · intro h
    induction t with
    | nil => exact ⟨[], rfl⟩
    | cons c t ih =>
      obtain ⟨hc, ht⟩ := wellFormed_cons.1 h
      obtain ⟨d, rfl⟩ := CodePoint.isSurrogate_eq_false_iff.1 hc
      obtain ⟨cs, rfl⟩ := ih ht
      exact ⟨d :: cs, rfl⟩
  · rintro ⟨cs, rfl⟩
    exact wellFormed_ofChars cs

theorem chars?_ofChars (cs : List Char) : (ofChars cs).chars? = some cs := by
  induction cs with
  | nil => rfl
  | cons c cs ih =>
    rw [chars?] at ih
    simp only [chars?, ofChars, List.map_cons, List.mapM_cons, CodePoint.char?] at ih ⊢
    rw [ih]
    rfl

theorem chars?_eq_some_iff {t : Text} {cs : List Char} : t.chars? = some cs ↔ t = ofChars cs := by
  constructor
  · intro h
    induction t generalizing cs with
    | nil => cases h; rfl
    | cons c t ih =>
      simp only [chars?, List.mapM_cons, Option.bind_eq_bind, Option.bind_eq_some_iff,
        Option.pure_def, Option.some.injEq] at h
      obtain ⟨d, hd, ds, hds, rfl⟩ := h
      rw [ih hds]
      cases c <;> cases hd
      rfl
  · rintro rfl
    exact chars?_ofChars cs

theorem replaced_of_wellFormed {t : Text} (h : t.WellFormed) : t.replaced = t := by
  induction t with
  | nil => rfl
  | cons c t ih =>
    obtain ⟨hc, ht⟩ := wellFormed_cons.1 h
    rw [replaced, List.flatMap_cons, if_neg (by simp [hc])]
    exact congrArg (c :: ·) (ih ht)

@[simp] theorem wellFormed_toText (s : String) : s.toText.WellFormed :=
  wellFormed_ofChars s.toList

@[simp] theorem replaced_toText (s : String) : s.toText.replaced = s.toText :=
  replaced_of_wellFormed (wellFormed_toText s)

theorem wellFormed_replaced (t : Text) : t.replaced.WellFormed := by
  intro c hc
  obtain ⟨d, -, hd⟩ := List.mem_flatMap.1 hc
  split at hd
  · simp only [List.mem_cons, List.not_mem_nil, or_false, or_self] at hd
    rw [hd]
    rfl
  · next hsurrogate =>
    rw [List.mem_singleton.1 hd]
    exact Bool.eq_false_iff.2 hsurrogate

end Text

end AttributeAccess
