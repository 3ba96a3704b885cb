import AttributeAccess.Proofs.Text.Digits
import AttributeAccess.Text.Utf8

/-!
# UTF-8 read back

A character is written as one to four bytes, and which bytes those are is an equation between the
character and its bits (`encodeChar_eq_two_iff` and its like). Reading collects the same bits, so it
takes the bytes of a character and no others (`exists_of_decodeFrom`), in front of any rest
(`decodeFrom_encodeChar_append`). Bytes are therefore read as a text exactly when they are what the
text is written as (`decode_eq_ok_iff`): no second spelling of a text is accepted.
-/

namespace AttributeAccess

/-- What is said of bytes that do not decode consists of plain words and digits. -/
@[simp] theorem DecodingFault.wellFormed_message (f : DecodingFault) : f.message.WellFormed := by
  have hname : f.encoding.name.WellFormed := by cases f.encoding <;> decide
  have hcause : f.cause.message.WellFormed := by cases f.cause <;> decide
  unfold message
  split <;> simp [hname, hcause]

namespace Utf8

/-! ## The bytes of one character -/

section
variable {c : Char}

/-- No character has the number of a surrogate. -/
theorem toNat_lt_or (c : Char) : c.toNat < 0xD800 ∨ 0xDFFF < c.toNat ∧ c.toNat < 0x110000 :=
  c.valid

/-- A number that is no surrogate is the number of one character. -/
theorem eq_ofNat_iff {n : Nat} (h : n < 0xD800 ∨ 0xDFFF < n ∧ n < 0x110000) :
    c = Char.ofNat n ↔ c.toNat = n := by
  have hback : (Char.ofNat n).toNat = n := by
    rw [Char.ofNat, dif_pos h]
    rfl
  constructor
  · rintro rfl
    exact hback
  · intro hn
    rw [← Char.toNat_inj, hn, hback]

theorem ofNat_eq_iff {n : Nat} {b : UInt8} (h : n < 256) : UInt8.ofNat n = b ↔ n = b.toNat := by
  rw [← UInt8.toNat_inj, UInt8.toNat_ofNat_of_lt' h]

theorem encodeChar_eq_one_iff {b : UInt8} :
    String.utf8EncodeChar c = [b] ↔ b.toNat < 0x80 ∧ c = Char.ofNat b.toNat := by
  have hb := b.toNat_lt
  unfold String.utf8EncodeChar
  simp only [Char.toNat_val]
  split
  · next h =>
    rw [List.cons.injEq, and_iff_left rfl, ofNat_eq_iff (by omega)]
    constructor
    · intro he
      exact ⟨by omega, (eq_ofNat_iff (by omega)).2 he⟩
    · rintro ⟨hlt, hc⟩
      exact (eq_ofNat_iff (by omega)).1 hc
  · next h =>
    have hne : ¬ (b.toNat < 0x80 ∧ c = Char.ofNat b.toNat) := by
      rintro ⟨hlt, hc⟩
      have := (eq_ofNat_iff (by omega)).1 hc
      omega
    simp only [hne, iff_false]
    split
    · simp
    · split <;> simp

theorem encodeChar_eq_two_iff {a b : UInt8} :
    String.utf8EncodeChar c = [a, b] ↔
      (0xC2 ≤ a.toNat ∧ a.toNat ≤ 0xDF) ∧ (0x80 ≤ b.toNat ∧ b.toNat ≤ 0xBF) ∧
        c = Char.ofNat (64 * (a.toNat - 0xC0) + (b.toNat - 0x80)) := by
  have hc := toNat_lt_or c
  unfold String.utf8EncodeChar
  simp only [Char.toNat_val]
  constructor
  · intro h
    split at h
    · cases h
    · split at h
      · simp only [List.cons.injEq, and_true] at h
        rw [ofNat_eq_iff (by omega), ofNat_eq_iff (by omega)] at h
        exact ⟨by omega, by omega, (eq_ofNat_iff (by omega)).2 (by omega)⟩
      · split at h <;> cases h
  · rintro ⟨ha, hb, hn⟩
    rw [eq_ofNat_iff (by omega)] at hn
    rw [if_neg (by omega), if_pos (by omega)]
    simp only [List.cons.injEq, and_true]
    rw [ofNat_eq_iff (by omega), ofNat_eq_iff (by omega)]
    omega

theorem encodeChar_eq_three_iff {a b d : UInt8} :
    String.utf8EncodeChar c = [a, b, d] ↔
      (0xE0 ≤ a.toNat ∧ a.toNat ≤ 0xEF) ∧
        ((if a.toNat = 0xE0 then 0xA0 else 0x80) ≤ b.toNat ∧
          b.toNat ≤ if a.toNat = 0xED then 0x9F else 0xBF) ∧
        (0x80 ≤ d.toNat ∧ d.toNat ≤ 0xBF) ∧
        c = Char.ofNat (64 * (64 * (a.toNat - 0xE0) + (b.toNat - 0x80)) + (d.toNat - 0x80)) := by
  have hc := toNat_lt_or c
  unfold String.utf8EncodeChar
  simp only [Char.toNat_val]
  constructor
  · intro h
    split at h
    · cases h
    · split at h
      · cases h
      · split at h
        · simp only [List.cons.injEq, and_true] at h
          rw [ofNat_eq_iff (by omega), ofNat_eq_iff (by omega), ofNat_eq_iff (by omega)] at h
          refine ⟨by omega, ?_, by omega, (eq_ofNat_iff (by omega)).2 (by omega)⟩
          constructor <;> split <;> omega
        · cases h
  · rintro ⟨ha, ⟨hlow, hhigh⟩, hd, hn⟩
    have hb : 0x80 ≤ b.toNat ∧ b.toNat ≤ 0xBF ∧ (a.toNat = 0xE0 → 0xA0 ≤ b.toNat) ∧
        (a.toNat = 0xED → b.toNat ≤ 0x9F) := by
      split at hlow <;> split at hhigh <;> omega
    rw [eq_ofNat_iff (by omega)] at hn
    rw [if_neg (by omega), if_neg (by omega), if_pos (by omega)]
    simp only [List.cons.injEq, and_true]
    rw [ofNat_eq_iff (by omega), ofNat_eq_iff (by omega), ofNat_eq_iff (by omega)]
    omega

theorem encodeChar_eq_four_iff {a b d e : UInt8} :
    String.utf8EncodeChar c = [a, b, d, e] ↔
      (0xF0 ≤ a.toNat ∧ a.toNat ≤ 0xF4) ∧
        ((if a.toNat = 0xF0 then 0x90 else 0x80) ≤ b.toNat ∧
          b.toNat ≤ if a.toNat = 0xF4 then 0x8F else 0xBF) ∧
        (0x80 ≤ d.toNat ∧ d.toNat ≤ 0xBF) ∧ (0x80 ≤ e.toNat ∧ e.toNat ≤ 0xBF) ∧
        c = Char.ofNat (64 * (64 * (64 * (a.toNat - 0xF0) + (b.toNat - 0x80)) +
          (d.toNat - 0x80)) + (e.toNat - 0x80)) := by
  have hc := toNat_lt_or c
  unfold String.utf8EncodeChar
  simp only [Char.toNat_val]
  constructor
  · intro h
    split at h
    · cases h
    · split at h
      · cases h
      · split at h
        · cases h
        · simp only [List.cons.injEq, and_true] at h
          rw [ofNat_eq_iff (by omega), ofNat_eq_iff (by omega), ofNat_eq_iff (by omega),
            ofNat_eq_iff (by omega)] at h
          refine ⟨by omega, ?_, by omega, by omega, (eq_ofNat_iff (by omega)).2 (by omega)⟩
          constructor <;> split <;> omega
  · rintro ⟨ha, ⟨hlow, hhigh⟩, hd, he, hn⟩
    have hb : 0x80 ≤ b.toNat ∧ b.toNat ≤ 0xBF ∧ (a.toNat = 0xF0 → 0x90 ≤ b.toNat) ∧
        (a.toNat = 0xF4 → b.toNat ≤ 0x8F) := by
      split at hlow <;> split at hhigh <;> omega
    rw [eq_ofNat_iff (by omega)] at hn
    rw [if_neg (by omega), if_neg (by omega), if_neg (by omega)]
    simp only [List.cons.injEq, and_true]
    rw [ofNat_eq_iff (by omega), ofNat_eq_iff (by omega), ofNat_eq_iff (by omega),
      ofNat_eq_iff (by omega)]
    omega

end

/-! ## One character read -/

section
variable {position start bits owed low high : Nat} {a b first : UInt8} {bs : Bytes} {t : List Char}

/-- A first byte above the ASCII range says how many bytes follow and what the first of them may
be. -/
theorem begin?_eq_some_iff {p : Pending} :
    begin? start a = some p ↔
      ((0xC2 ≤ a.toNat ∧ a.toNat ≤ 0xDF) ∧ p = ⟨a, start, a.toNat - 0xC0, 1, 0x80, 0xBF⟩) ∨
      ((0xE0 ≤ a.toNat ∧ a.toNat ≤ 0xEF) ∧
        p = ⟨a, start, a.toNat - 0xE0, 2, if a.toNat = 0xE0 then 0xA0 else 0x80,
          if a.toNat = 0xED then 0x9F else 0xBF⟩) ∨
      ((0xF0 ≤ a.toNat ∧ a.toNat ≤ 0xF4) ∧
        p = ⟨a, start, a.toNat - 0xF0, 3, if a.toNat = 0xF0 then 0x90 else 0x80,
          if a.toNat = 0xF4 then 0x8F else 0xBF⟩) := by
  unfold begin?
  grind

theorem map_cons_eq_ok {r : Except DecodingFault (List Char)} {c : Char} :
    r.map (c :: ·) = .ok t ↔ ∃ u, t = c :: u ∧ r = .ok u := by
  cases r <;> simp [Except.map, eq_comm]

/-- The last byte of a character. -/
theorem decodeFrom_last_eq_ok :
    decodeFrom position (some ⟨first, start, bits, 1, low, high⟩) bs = .ok t ↔
      ∃ b rest u, bs = b :: rest ∧ t = Char.ofNat (64 * bits + (b.toNat - 0x80)) :: u ∧
        (low ≤ b.toNat ∧ b.toNat ≤ high) ∧ decodeFrom (position + 1) none rest = .ok u := by
  cases bs with
  | nil => simp [decodeFrom]
  | cons b bs =>
    rw [decodeFrom]
    constructor
    · intro h
      split at h
      · next hb =>
        obtain ⟨u, rfl, hu⟩ := map_cons_eq_ok.1 h
        exact ⟨b, bs, u, rfl, rfl, hb, hu⟩
      · cases h
    · rintro ⟨_, _, u, ⟨⟩, rfl, hb, hu⟩
      rw [if_pos hb]
      exact map_cons_eq_ok.2 ⟨u, rfl, hu⟩

/-- A byte of a character before the last one. -/
theorem decodeFrom_more_eq_ok :
    decodeFrom position (some ⟨first, start, bits, owed + 2, low, high⟩) bs = .ok t ↔
      ∃ b rest, bs = b :: rest ∧ (low ≤ b.toNat ∧ b.toNat ≤ high) ∧
        decodeFrom (position + 1)
          (some ⟨first, start, 64 * bits + (b.toNat - 0x80), owed + 1, 0x80, 0xBF⟩) rest =
            .ok t := by
  cases bs with
  | nil => simp [decodeFrom]
  | cons b bs =>
    rw [decodeFrom]
    constructor
    · intro h
      split at h
      · next hb => exact ⟨b, bs, rfl, hb, h⟩
      · cases h
    · rintro ⟨_, _, ⟨⟩, hb, hrest⟩
      rw [if_pos hb]
      exact hrest

theorem decodeFrom_ascii (h : a.toNat < 0x80) :
    decodeFrom position none (a :: bs) = .ok t ↔
      ∃ u, t = Char.ofNat a.toNat :: u ∧ decodeFrom (position + 1) none bs = .ok u := by
  rw [decodeFrom, if_pos h, map_cons_eq_ok]

theorem decodeFrom_begin (h : ¬ a.toNat < 0x80) :
    decodeFrom position none (a :: bs) = .ok t ↔
      ∃ p, begin? position a = some p ∧ decodeFrom (position + 1) (some p) bs = .ok t := by
  rw [decodeFrom, if_neg h]
  cases begin? position a <;> simp

/-- Reading a character takes the bytes that the character is written as. -/
theorem exists_of_decodeFrom (h : decodeFrom position none (a :: bs) = .ok t) :
    ∃ c u rest next, t = c :: u ∧ a :: bs = String.utf8EncodeChar c ++ rest ∧
      decodeFrom next none rest = .ok u := by
  by_cases hascii : a.toNat < 0x80
  · obtain ⟨u, rfl, hu⟩ := (decodeFrom_ascii hascii).1 h
    have hone := encodeChar_eq_one_iff.2 ⟨hascii, rfl⟩
    exact ⟨_, u, bs, _, rfl, by rw [hone]; rfl, hu⟩
  · obtain ⟨p, hp, hrest⟩ := (decodeFrom_begin hascii).1 h
    rcases begin?_eq_some_iff.1 hp with ⟨ha, rfl⟩ | ⟨ha, rfl⟩ | ⟨ha, rfl⟩
    · obtain ⟨b, bs, u, rfl, rfl, hb, hu⟩ := decodeFrom_last_eq_ok.1 hrest
      have htwo := encodeChar_eq_two_iff.2 ⟨ha, hb, rfl⟩
      exact ⟨_, u, bs, _, rfl, by rw [htwo]; rfl, hu⟩
    · obtain ⟨b, bs, rfl, hb, hrest⟩ := decodeFrom_more_eq_ok.1 hrest
      obtain ⟨d, bs, u, rfl, rfl, hd, hu⟩ := decodeFrom_last_eq_ok.1 hrest
      have hthree := encodeChar_eq_three_iff.2 ⟨ha, hb, hd, rfl⟩
      exact ⟨_, u, bs, _, rfl, by rw [hthree]; rfl, hu⟩
    · obtain ⟨b, bs, rfl, hb, hrest⟩ := decodeFrom_more_eq_ok.1 hrest
      obtain ⟨d, bs, rfl, hd, hrest⟩ := decodeFrom_more_eq_ok.1 hrest
      obtain ⟨e, bs, u, rfl, rfl, he, hu⟩ := decodeFrom_last_eq_ok.1 hrest
      have hfour := encodeChar_eq_four_iff.2 ⟨ha, hb, hd, he, rfl⟩
      exact ⟨_, u, bs, _, rfl, by rw [hfour]; rfl, hu⟩

/-- In front of any rest, the bytes of a character are read as that character. -/
theorem decodeFrom_encodeChar_append (c : Char) {u : List Char}
    (h : ∀ position, decodeFrom position none bs = .ok u) :
    decodeFrom position none (String.utf8EncodeChar c ++ bs) = .ok (c :: u) := by
  have hsize := String.length_utf8EncodeChar c
  have hle := c.utf8Size_le_four
  match hc : String.utf8EncodeChar c with
  | [] => exact absurd hc String.utf8EncodeChar_ne_nil
  | [a] =>
    obtain ⟨ha, hchar⟩ := encodeChar_eq_one_iff.1 hc
    exact (decodeFrom_ascii ha).2 ⟨u, by rw [hchar], h _⟩
  | [a, b] =>
    obtain ⟨ha, hb, hchar⟩ := encodeChar_eq_two_iff.1 hc
    refine (decodeFrom_begin (by omega)).2 ⟨_, begin?_eq_some_iff.2 (.inl ⟨ha, rfl⟩), ?_⟩
    exact decodeFrom_last_eq_ok.2 ⟨b, bs, u, rfl, by rw [hchar], hb, h _⟩
  | [a, b, d] =>
    obtain ⟨ha, hb, hd, hchar⟩ := encodeChar_eq_three_iff.1 hc
    refine (decodeFrom_begin (by omega)).2 ⟨_, begin?_eq_some_iff.2 (.inr (.inl ⟨ha, rfl⟩)), ?_⟩
    refine decodeFrom_more_eq_ok.2 ⟨b, d :: bs, rfl, hb, ?_⟩
    exact decodeFrom_last_eq_ok.2 ⟨d, bs, u, rfl, by rw [hchar], hd, h _⟩
  | [a, b, d, e] =>
    obtain ⟨ha, hb, hd, he, hchar⟩ := encodeChar_eq_four_iff.1 hc
    refine (decodeFrom_begin (by omega)).2 ⟨_, begin?_eq_some_iff.2 (.inr (.inr ⟨ha, rfl⟩)), ?_⟩
    refine decodeFrom_more_eq_ok.2 ⟨b, d :: e :: bs, rfl, hb, ?_⟩
    refine decodeFrom_more_eq_ok.2 ⟨d, e :: bs, rfl, hd, ?_⟩
    exact decodeFrom_last_eq_ok.2 ⟨e, bs, u, rfl, by rw [hchar], he, h _⟩
  | _ :: _ :: _ :: _ :: _ :: _ =>
    rw [hc] at hsize
    simp only [List.length_cons] at hsize
    omega

end

/-! ## Texts -/

theorem encode_cons (c : Char) (t : List Char) :
    encode (c :: t) = String.utf8EncodeChar c ++ encode t :=
  List.flatMap_cons

theorem length_le_length_encode (t : List Char) : t.length ≤ (encode t).length := by
  induction t with
  | nil => exact Nat.le_refl 0
  | cons c t ih =>
    have := c.utf8Size_pos
    rw [encode_cons, List.length_append, String.length_utf8EncodeChar, List.length_cons]
    omega

theorem decodeFrom_encode (position : Nat) (t : List Char) :
    decodeFrom position none (encode t) = .ok t := by
  induction t generalizing position with
  | nil => rfl
  | cons c t ih =>
    rw [encode_cons]
    exact decodeFrom_encodeChar_append c ih

theorem encode_of_decodeFrom {position : Nat} {bs : Bytes} {t : List Char}
    (h : decodeFrom position none bs = .ok t) : encode t = bs := by
  induction t generalizing position bs with
  | nil =>
    cases bs with
    | nil => rfl
    | cons a bs =>
      obtain ⟨c, u, rest, next, ht, -, -⟩ := exists_of_decodeFrom h
      cases ht
  | cons c t ih =>
    cases bs with
    | nil => cases h
    | cons a bs =>
      obtain ⟨_, _, rest, next, ⟨⟩, hbytes, hrest⟩ := exists_of_decodeFrom h
      rw [encode_cons, ih hrest, hbytes]

/-- Bytes are read as a text exactly when they are what the text is written as. -/
theorem decode_eq_ok_iff {bs : Bytes} {t : List Char} : decode bs = .ok t ↔ encode t = bs :=
  ⟨encode_of_decodeFrom, fun h => h ▸ decodeFrom_encode 0 t⟩

theorem encode_injective {t u : List Char} (h : encode t = encode u) : t = u := by
  have ht := decode_eq_ok_iff.2 h
  rw [decode_eq_ok_iff.2 rfl] at ht
  exact (Except.ok.inj ht).symm

end Utf8

end AttributeAccess
