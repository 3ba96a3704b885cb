import AttributeAccess.Json.Reader
import AttributeAccess.Json.Writer
import AttributeAccess.Proofs.Text.Digits
import AttributeAccess.Proofs.Text.Search
import AttributeAccess.Proofs.Text.WellFormed

/-!
# Reading what was written

`read_compact`: reading the compact text of a value gives the value back, in every manner of
reading that allows its nesting. The proof follows the reader. Each part of it is taken in front
of an arbitrary rest: a string ends at its own quote, and a number only needs a rest that does not
go on with it (`EndsNumber`). The text bounds the steps, so the fuel of the reader never runs out.
-/

namespace AttributeAccess.Json

/-! ## Strings -/

theorem hex4?_padded {n : Nat} (h : n < 65536) (t : Text) :
    hex4? (Hex.padded 4 n ++ t) = some (n, t) := by
  have h1 := Hex.value?_digit (n := n / 16 / 16 / 16 % 16) (by omega)
  have h2 := Hex.value?_digit (n := n / 16 / 16 % 16) (by omega)
  have h3 := Hex.value?_digit (n := n / 16 % 16) (by omega)
  have h4 := Hex.value?_digit (n := n % 16) (by omega)
  simp only [Hex.padded, List.nil_append, List.cons_append, hex4?, h1, h2, h3, h4]
  congr 2
  omega

theorem hexEscape_padded {n : Nat} (h : n < 0xD800) (strict : Bool) {t : Text} (ht : t ≠ []) :
    hexEscape strict (Hex.padded 4 n ++ t) = .ok (.ofNat n, t) := by
  have hdrop : ((Hex.padded 4 n ++ t).drop 4).isEmpty = false := by
    simpa [Hex.padded] using ht
  simp only [hexEscape, hdrop, Bool.false_eq_true, if_false, hex4?_padded (n := n) (by omega)]
  rw [if_pos (.inl h)]

/-- A character is written as a short escape, as its number or as itself. -/
theorem escapeChar_cases (c : CodePoint) :
    (∃ e, escapeChar c = [.char '\\', e] ∧ e ≠ .char 'u' ∧ escaped? e = some c) ∨
    (c.toNat < 0x20 ∧ escapeChar c = .char '\\' :: .char 'u' :: Hex.padded 4 c.toNat) ∨
    (escapeChar c = [c] ∧ c ≠ .char '"' ∧ c ≠ .char '\\' ∧ ¬ c.toNat < 0x20) := by
  by_cases hshort : c ∈ [.char '"', .char '\\', .char '\n', .char '\r', .char '\t', .char '\x08',
      .char '\x0c']
  · refine .inl ?_
    simp only [List.mem_cons, List.not_mem_nil, or_false] at hshort
    rcases hshort with rfl | rfl | rfl | rfl | rfl | rfl | rfl <;>
      exact ⟨_, rfl, by decide, rfl⟩
  · simp only [List.mem_cons, List.not_mem_nil, or_false, not_or] at hshort
    obtain ⟨hquote, hslash, hn, hr, ht, hb, hf⟩ := hshort
    have hlong : escapeChar c =
        if c.toNat < 0x20 then .char '\\' :: .char 'u' :: Hex.padded 4 c.toNat else [c] := by
      unfold escapeChar
      rw [if_neg hquote, if_neg hslash, if_neg hn, if_neg hr, if_neg ht, if_neg hb, if_neg hf]
    by_cases hcontrol : c.toNat < 0x20
    · exact .inr (.inl ⟨hcontrol, by rw [hlong, if_pos hcontrol]⟩)
    · exact .inr (.inr ⟨by rw [hlong, if_neg hcontrol], hquote, hslash, hcontrol⟩)

theorem bind_cons (c : CodePoint) (r : Except Stop (Text × Text)) :
    (r.bind fun p => .ok (c :: p.1, p.2)) = r.map fun p => (c :: p.1, p.2) := by
  cases r <;> rfl

theorem stringBody_escaped (strict : Bool) (start : Text) (fuel : Nat) {e c : CodePoint}
    (he : e ≠ .char 'u')
    (hc : escaped? e = some c) (t : Text) :
    stringBody strict start (fuel + 1) (.char '\\' :: e :: t) =
      (stringBody strict start fuel t).map fun p => (c :: p.1, p.2) := by
  rw [stringBody.eq_def]
  simp only
  split
  · next hnone =>
    rw [hc] at hnone
    cases hnone
  · next d hd =>
    rw [hc] at hd
    cases hd
    exact bind_cons c _

theorem stringBody_plain (strict : Bool) (start : Text) (fuel : Nat) {c : CodePoint}
    (hquote : c ≠ .char '"')
    (hslash : c ≠ .char '\\') (hcontrol : ¬ c.toNat < 0x20) (t : Text) :
    stringBody strict start (fuel + 1) (c :: t) =
      (stringBody strict start fuel t).map fun p => (c :: p.1, p.2) := by
  rw [stringBody.eq_def]
  simp only
  split
  · next heq => cases heq
  · next heq => cases heq; exact absurd rfl hquote
  · next heq => cases heq; exact absurd rfl hslash
  · next heq => cases heq; exact absurd rfl hslash
  · next heq => cases heq; exact absurd rfl hslash
  · next heq =>
    cases heq
    rw [if_neg hcontrol]
    exact bind_cons c _

/-- Reading undoes the escape of one character; the text goes on behind it, at least to the
closing quote. -/
theorem stringBody_escapeChar (strict : Bool) (start : Text) (fuel : Nat) (c : CodePoint) {t : Text}
    (ht : t ≠ []) :
    stringBody strict start (fuel + 1) (escapeChar c ++ t) =
      (stringBody strict start fuel t).map fun p => (c :: p.1, p.2) := by
  rcases escapeChar_cases c with ⟨e, he, hu, hc⟩ | ⟨hcontrol, he⟩ | ⟨he, hquote, hslash, hcontrol⟩
  · rw [he]
    exact stringBody_escaped strict start fuel hu hc t
  · rw [he, List.cons_append, List.cons_append, stringBody,
      hexEscape_padded (by omega) strict ht, CodePoint.ofNat_toNat]
    exact bind_cons c _
  · rw [he]
    exact stringBody_plain strict start fuel hquote hslash hcontrol t

theorem stringBody_flatMap (strict : Bool) (start : Text) {fuel : Nat} {t : Text}
    (h : t.length < fuel) (rest : Text) :
    stringBody strict start fuel (t.flatMap escapeChar ++ .char '"' :: rest) = .ok (t, rest) := by
  induction t generalizing fuel with
  | nil =>
    obtain ⟨fuel, rfl⟩ : ∃ n, fuel = n + 1 := ⟨fuel - 1, by simp at h; omega⟩
    rfl
  | cons c t ih =>
    obtain ⟨fuel, rfl⟩ : ∃ n, fuel = n + 1 := ⟨fuel - 1, by simp at h; omega⟩
    rw [List.flatMap_cons, List.append_assoc, stringBody_escapeChar strict start fuel c (by simp),
      ih (by simp at h; omega)]
    rfl

theorem length_escapeChar_pos (c : CodePoint) : 1 ≤ (escapeChar c).length := by
  rcases escapeChar_cases c with ⟨e, he, -⟩ | ⟨-, he⟩ | ⟨he, -⟩ <;> rw [he] <;> simp

theorem length_le_length_quote (t : Text) : t.length + 2 ≤ (quote t).length := by
  have h : t.length ≤ (t.flatMap escapeChar).length := by
    induction t with
    | nil => simp
    | cons c t ih =>
      have := length_escapeChar_pos c
      simp only [List.flatMap_cons, List.length_append, List.length_cons]
      omega
  simp only [quote, List.cons_append, List.length_cons, List.length_append, List.length_nil]
  omega

theorem stringAt_quote (strict : Bool) {fuel : Nat} {t : Text} (h : t.length < fuel)
    (rest : Text) : stringAt strict fuel (quote t ++ rest) = .ok (t, rest) := by
  unfold stringAt
  rw [show (quote t ++ rest).tail = t.flatMap escapeChar ++ .char '"' :: rest by simp [quote]]
  exact stringBody_flatMap strict _ h rest

/-! ## Numbers and words -/

/-- A number ends before this text: no digit, point or exponent mark comes first. -/
def EndsNumber : Text → Prop
  | [] => True
  | c :: _ => Digits.isDigit c = false ∧ c ≠ .char '.' ∧ c ≠ .char 'e' ∧ c ≠ .char 'E'

theorem digitsAt_append {ds rest : Text} (h : ∀ c ∈ ds, Digits.isDigit c = true)
    (hrest : EndsNumber rest) : digitsAt (ds ++ rest) = (ds, rest) := by
  have hstop : rest.takeWhile Digits.isDigit = [] ∧ rest.dropWhile Digits.isDigit = rest := by
    cases rest with
    | nil => exact ⟨rfl, rfl⟩
    | cons c rest => simp [hrest.1]
  unfold digitsAt
  rw [List.takeWhile_append_of_pos h, List.dropWhile_append_of_pos h, hstop.1, hstop.2,
    List.append_nil]

theorem wholeAt?_ofNat (n : Nat) {rest : Text} (hrest : EndsNumber rest) :
    wholeAt? (Digits.ofNat n ++ rest) = some (Digits.ofNat n, rest) := by
  rcases Digits.ofNat_eq_cons n with h | ⟨c, ds, h, hc⟩
  · rw [h]
    rfl
  · have hdigits := digitsAt_append (Digits.isDigit_of_mem_ofNat n) hrest
    rw [h] at hdigits ⊢
    rw [List.cons_append] at hdigits ⊢
    unfold wholeAt?
    split
    · next heq =>
      cases heq
      exact absurd rfl hc
    · rw [hdigits]

theorem fractionAt_of_endsNumber {rest : Text} (h : EndsNumber rest) :
    fractionAt rest = ([], rest) := by
  unfold fractionAt
  split
  · exact absurd rfl h.2.1
  · rfl

theorem exponentAt_of_endsNumber {rest : Text} (h : EndsNumber rest) :
    exponentAt rest = (none, rest) := by
  cases rest with
  | nil => rfl
  | cons c rest =>
    unfold exponentAt
    simp only
    rw [if_neg (not_or.2 h.2.2)]

theorem magnitudeAt_ofNat (strict : Bool) {n : Nat} (hn : (Digits.ofNat n).length ≤ Digits.limit)
    {rest : Text} (hrest : EndsNumber rest) :
    magnitudeAt strict false (Digits.ofNat n ++ rest) = .ok (.integer n, rest) := by
  unfold magnitudeAt
  rw [wholeAt?_ofNat n hrest]
  simp only [fractionAt_of_endsNumber hrest, exponentAt_of_endsNumber hrest]
  simp [Nat.not_lt.2 hn, Digits.toNat_ofNat]

theorem isDigit_head_ofNat (n : Nat) :
    ∃ c ds, Digits.ofNat n = c :: ds ∧ Digits.isDigit c = true := by
  obtain ⟨c, ds, h⟩ := List.exists_cons_of_ne_nil (Digits.ofNat_ne_nil n)
  exact ⟨c, ds, h, Digits.isDigit_of_mem_ofNat n c (h ▸ List.mem_cons_self)⟩

theorem wordIn?_eq_none {ws : List (Text × Json)} {t : Text} (h : ∀ e ∈ ws, ¬ e.1 <+: t) :
    wordIn? ws t = none := by
  induction ws with
  | nil => rfl
  | cons e ws ih =>
    rw [List.forall_mem_cons] at h
    unfold wordIn?
    rw [Text.isPrefixOf?_eq_none h.1]
    exact ih h.2

theorem wordIn?_of_isDigit {c : CodePoint} (h : Digits.isDigit c = true) (t : Text) :
    wordIn? words (c :: t) = none := by
  have hfirst : ∀ e ∈ words, e.1.head?.map Digits.isDigit = some false := by decide
  refine wordIn?_eq_none fun e he hp => ?_
  obtain ⟨d, hd, hdigit⟩ := Option.map_eq_some_iff.1 (hfirst e he)
  obtain ⟨w, hw⟩ := List.head?_eq_some_iff.1 hd
  rw [hw] at hp
  obtain ⟨rfl, -⟩ := List.cons_prefix_cons.1 hp
  rw [h] at hdigit
  cases hdigit

theorem scalarAt_ofNat (strict : Bool) {n : Nat} (hn : (Digits.ofNat n).length ≤ Digits.limit)
    {rest : Text} (hrest : EndsNumber rest) :
    scalarAt strict (Digits.ofNat n ++ rest) = .ok (ofNat n, rest) := by
  obtain ⟨c, ds, hds, hc⟩ := isDigit_head_ofNat n
  have hnumber : numberAt strict (Digits.ofNat n ++ rest) = .ok (.integer n, rest) := by
    unfold numberAt
    split
    · next heq =>
      rw [hds] at heq
      cases heq
      exact absurd hc (by decide)
    · exact magnitudeAt_ofNat strict hn hrest
  unfold scalarAt
  rw [hnumber]
  rw [hds, List.cons_append, wordIn?_of_isDigit hc]
  rfl

/-! ## Values -/

/-- Values whose text is read back: `depth` bounds their nesting, and their numbers are natural
ones with no more digits than reading allows. -/
inductive Readable : (depth : Nat) → Json → Prop
  | null {depth : Nat} : Readable depth null
  | bool {depth : Nat} (b : Bool) : Readable depth (bool b)
  | string {depth : Nat} (t : Text) : Readable depth (string t)
  | number {depth n : Nat} (h : (Digits.ofNat n).length ≤ Digits.limit) : Readable depth (ofNat n)
  | array {depth : Nat} {items : List Json} (h : ∀ v ∈ items, Readable depth v) :
    Readable (depth + 1) (array items)
  | object {depth : Nat} {members : List (Text × Json)} (h : ∀ m ∈ members, Readable depth m.2) :
    Readable (depth + 1) (object members)

/-- The written value is read back in front of whatever may follow a number. -/
def ReadsBack (strict : Bool) (depth : Nat) (v : Json) : Prop :=
  ∀ fuel rest, 2 * v.compact.length + 1 ≤ fuel → EndsNumber rest →
    valueAt strict fuel depth (v.compact ++ rest) = .ok (v, rest)

theorem skipSpace_cons {c : CodePoint} (h : isSpace c = false) (t : Text) :
    skipSpace (c :: t) = c :: t := by
  simp [skipSpace, h]

theorem isSpace_of_isDigit {c : CodePoint} (h : Digits.isDigit c = true) : isSpace c = false := by
  simp only [Digits.isDigit, Bool.and_eq_true, decide_eq_true_eq] at h
  simp only [isSpace, Bool.or_eq_false_iff, beq_eq_false_iff_ne]
  refine ⟨⟨⟨?_, ?_⟩, ?_⟩, ?_⟩ <;> (rintro rfl; revert h; decide)

/-- Written, the value starts with neither a space nor the end of an array. -/
def StartsItem (v : Json) : Prop :=
  ∃ c t, v.compact = c :: t ∧ isSpace c = false ∧ c ≠ .char ']'

theorem StartsItem.skipSpace_append {v : Json} (h : StartsItem v) (more : Text) :
    skipSpace (v.compact ++ more) = v.compact ++ more := by
  obtain ⟨c, t, hc, hspace, -⟩ := h
  rw [hc]
  exact skipSpace_cons hspace _

theorem Readable.startsItem {depth : Nat} {v : Json} (h : Readable depth v) : StartsItem v := by
  cases h with
  | null => exact ⟨.char 'n', _, rfl, by decide, by decide⟩
  | bool b => cases b <;> exact ⟨_, _, rfl, by decide, by decide⟩
  | string t => exact ⟨.char '"', _, rfl, by decide, by decide⟩
  | @number _ n =>
    obtain ⟨c, ds, hds, hc⟩ := isDigit_head_ofNat n
    exact ⟨c, ds, hds, isSpace_of_isDigit hc, by rintro rfl; exact absurd hc (by decide)⟩
  | array => exact ⟨.char '[', _, rfl, by decide, by decide⟩
  | object => exact ⟨.char '\x7b', _, rfl, by decide, by decide⟩

/-! ### Items and members -/

theorem compactItems_cons (v : Json) (items : List Json) :
    Text.joinWith [.char ','] (compactItems (v :: items)) =
      v.compact ++
        if items = [] then [] else .char ',' :: Text.joinWith [.char ','] (compactItems items) := by
  cases items with
  | nil => simp [compactItems, Text.joinWith]
  | cons w items => simp [compactItems, Text.joinWith]

theorem compactMembers_cons (m : Text × Json) (members : List (Text × Json)) :
    Text.joinWith [.char ','] (compactMembers (m :: members)) =
      quote m.1 ++ .char ':' :: (m.2.compact ++
        if members = [] then []
        else .char ',' :: Text.joinWith [.char ','] (compactMembers members)) := by
  cases members with
  | nil => simp [compactMembers, Text.joinWith]
  | cons n members => simp [compactMembers, Text.joinWith]

theorem endsNumber_comma (t : Text) : EndsNumber (.char ',' :: t) := by
  exact ⟨by decide, by decide, by decide, by decide⟩

theorem endsNumber_bracket (t : Text) : EndsNumber (.char ']' :: t) := by
  exact ⟨by decide, by decide, by decide, by decide⟩

theorem endsNumber_brace (t : Text) : EndsNumber (.char '\x7d' :: t) := by
  exact ⟨by decide, by decide, by decide, by decide⟩

theorem itemsAt_compactItems {strict : Bool} {depth : Nat} {items : List Json} (hne : items ≠ [])
    (hread : ∀ v ∈ items, ReadsBack strict depth v)
    (hhead : ∀ v ∈ items, StartsItem v)
    {fuel : Nat} (hfuel : 2 * (Text.joinWith [.char ','] (compactItems items)).length + 2 ≤ fuel)
    (rest : Text) :
    itemsAt strict fuel depth
      (Text.joinWith [.char ','] (compactItems items) ++ .char ']' :: rest) =
        .ok (items, rest) := by
  induction items generalizing fuel with
  | nil => exact absurd rfl hne
  | cons v items ih =>
    obtain ⟨fuel, rfl⟩ : ∃ n, fuel = n + 1 := ⟨fuel - 1, by omega⟩
    have hv := hread v List.mem_cons_self
    rw [compactItems_cons] at hfuel ⊢
    rw [itemsAt, List.append_assoc]
    cases items with
    | nil =>
      rw [if_pos rfl, List.append_nil] at hfuel
      rw [if_pos rfl, List.nil_append, hv fuel _ (by omega) (endsNumber_bracket rest)]
      rfl
    | cons w items =>
      rw [if_neg (List.cons_ne_nil w items), List.length_append, List.length_cons] at hfuel
      rw [if_neg (List.cons_ne_nil w items), List.cons_append,
        hv fuel _ (by omega) (endsNumber_comma _)]
      have hnext : itemsAt strict fuel depth
          (Text.joinWith [.char ','] (compactItems (w :: items)) ++ .char ']' :: rest) =
            .ok (w :: items, rest) :=
        ih (List.cons_ne_nil w items) (fun x hx => hread x (List.mem_cons_of_mem _ hx))
          (fun x hx => hhead x (List.mem_cons_of_mem _ hx)) (by omega)
      have hw : StartsItem w := hhead w (List.mem_cons_of_mem _ List.mem_cons_self)
      have hskip : skipSpace (Text.joinWith [.char ','] (compactItems (w :: items)) ++
          .char ']' :: rest) =
          Text.joinWith [.char ','] (compactItems (w :: items)) ++ .char ']' :: rest := by
        rw [compactItems_cons, List.append_assoc]
        exact hw.skipSpace_append _
      show (itemsAt strict fuel depth
          (skipSpace (Text.joinWith [.char ','] (compactItems (w :: items)) ++
            .char ']' :: rest))).bind
        (fun p => .ok (v :: p.1, p.2)) = _
      rw [hskip, hnext]
      rfl

/-- A written name with its colon leads to the value of the member. -/
theorem membersAt_quote (strict : Bool) {fuel : Nat} (depth : Nat) {name : Text}
    (h : name.length < fuel) (more : Text) :
    membersAt strict (fuel + 1) depth (quote name ++ .char ':' :: more) = (do
      let (v, t) ← valueAt strict fuel depth (skipSpace more)
      match skipSpace t with
      | .char '\x7d' :: t => .ok ([(name, v)], t)
      | .char ',' :: t => do
        let (ms, t) ← membersAt strict fuel depth (skipSpace t)
        .ok ((name, v) :: ms, t)
      | t => .error ⟨.comma, t⟩) := by
  have hstring := stringAt_quote strict h (.char ':' :: more)
  rw [quote, List.append_assoc, List.cons_append] at *
  rw [membersAt, hstring]
  rfl

theorem membersAt_compactMembers {strict : Bool} {depth : Nat} {members : List (Text × Json)}
    (hne : members ≠ []) (hread : ∀ m ∈ members, ReadsBack strict depth m.2)
    (hhead : ∀ m ∈ members, StartsItem m.2)
    {fuel : Nat}
    (hfuel : 2 * (Text.joinWith [.char ','] (compactMembers members)).length + 2 ≤ fuel)
    (rest : Text) :
    membersAt strict fuel depth
      (Text.joinWith [.char ','] (compactMembers members) ++ .char '\x7d' :: rest) =
        .ok (members, rest) := by
  induction members generalizing fuel with
  | nil => exact absurd rfl hne
  | cons m members ih =>
    obtain ⟨name, v⟩ := m
    obtain ⟨fuel, rfl⟩ : ∃ n, fuel = n + 1 := ⟨fuel - 1, by omega⟩
    have hv : ReadsBack strict depth v := hread (name, v) List.mem_cons_self
    have hstart : StartsItem v := hhead (name, v) List.mem_cons_self
    have hquote := length_le_length_quote name
    rw [compactMembers_cons] at hfuel ⊢
    simp only [List.length_append, List.length_cons] at hfuel
    rw [List.append_assoc, List.cons_append,
      membersAt_quote strict depth (show name.length < fuel by omega), List.append_assoc,
      hstart.skipSpace_append]
    cases members with
    | nil =>
      rw [if_pos rfl, List.length_nil] at hfuel
      rw [if_pos rfl, List.nil_append, hv fuel _ (by omega) (endsNumber_brace rest)]
      rfl
    | cons n members =>
      rw [if_neg (List.cons_ne_nil n members), List.length_cons] at hfuel
      rw [if_neg (List.cons_ne_nil n members), List.cons_append,
        hv fuel _ (by omega) (endsNumber_comma _)]
      have hnext : membersAt strict fuel depth
          (Text.joinWith [.char ','] (compactMembers (n :: members)) ++ .char '\x7d' :: rest) =
            .ok (n :: members, rest) :=
        ih (List.cons_ne_nil n members) (fun x hx => hread x (List.mem_cons_of_mem _ hx))
          (fun x hx => hhead x (List.mem_cons_of_mem _ hx)) (by omega)
      have hskip' : skipSpace (Text.joinWith [.char ','] (compactMembers (n :: members)) ++
          .char '\x7d' :: rest) =
          Text.joinWith [.char ','] (compactMembers (n :: members)) ++ .char '\x7d' :: rest := by
        rw [compactMembers_cons]
        exact skipSpace_cons (by decide) _
      show (do
        let (ms, t) ← membersAt strict fuel depth
          (skipSpace (Text.joinWith [.char ','] (compactMembers (n :: members)) ++
            CodePoint.char '\x7d' :: rest))
        .ok ((name, v) :: ms, t)) = _
      rw [hskip', hnext]
      rfl

/-! ### Reading undoes writing -/

/-- An array with content starts with its first item. -/
theorem valueAt_bracket (strict : Bool) (fuel depth : Nat) {c : CodePoint}
    (hspace : isSpace c = false)
    (hclose : c ≠ .char ']') (t : Text) :
    valueAt strict (fuel + 1) (depth + 1) (.char '[' :: c :: t) = (do
      let (vs, t) ← itemsAt strict fuel depth (c :: t)
      .ok (array vs, t)) := by
  rw [valueAt, skipSpace_cons hspace]
  split
  · next heq =>
    cases heq
    exact absurd rfl hclose
  · rfl

/-- An object with content starts with the name of its first member. -/
theorem valueAt_brace (strict : Bool) (fuel depth : Nat) (t : Text) :
    valueAt strict (fuel + 1) (depth + 1) (.char '\x7b' :: .char '"' :: t) = (do
      let (ms, t) ← membersAt strict fuel depth (.char '"' :: t)
      .ok (object ms, t)) := by
  rw [valueAt, skipSpace_cons (by decide)]
  rfl

theorem readsBack_array {strict : Bool} {depth : Nat} {items : List Json}
    (hread : ∀ v ∈ items, ReadsBack strict depth v)
    (hhead : ∀ v ∈ items, StartsItem v) :
    ReadsBack strict (depth + 1) (array items) := by
  intro fuel rest hfuel _
  obtain ⟨fuel, rfl⟩ : ∃ n, fuel = n + 1 := ⟨fuel - 1, by omega⟩
  simp only [compact, List.length_append, List.length_singleton] at hfuel
  have hcompact : (array items).compact ++ rest =
      .char '[' :: (Text.joinWith [.char ','] (compactItems items) ++ .char ']' :: rest) := by
    simp [compact]
  rw [hcompact]
  cases items with
  | nil => rfl
  | cons w items =>
    obtain ⟨c, t, hc, hspace, hclose⟩ := hhead w List.mem_cons_self
    have hitems := itemsAt_compactItems (List.cons_ne_nil w items) hread hhead
      (by omega : _ ≤ fuel) rest
    rw [compactItems_cons, hc] at hitems ⊢
    rw [List.cons_append, List.cons_append] at hitems ⊢
    rw [valueAt_bracket strict fuel depth hspace hclose, hitems]
    rfl

theorem readsBack_object {strict : Bool} {depth : Nat} {members : List (Text × Json)}
    (hread : ∀ m ∈ members, ReadsBack strict depth m.2)
    (hhead : ∀ m ∈ members, StartsItem m.2) :
    ReadsBack strict (depth + 1) (object members) := by
  intro fuel rest hfuel _
  obtain ⟨fuel, rfl⟩ : ∃ n, fuel = n + 1 := ⟨fuel - 1, by omega⟩
  simp only [compact, List.length_append, List.length_singleton] at hfuel
  have hcompact : (object members).compact ++ rest =
      .char '\x7b' ::
        (Text.joinWith [.char ','] (compactMembers members) ++ .char '\x7d' :: rest) := by
    simp [compact]
  rw [hcompact]
  cases members with
  | nil => rfl
  | cons n members =>
    have hmembers := membersAt_compactMembers (List.cons_ne_nil n members) hread hhead
      (by omega : _ ≤ fuel) rest
    rw [compactMembers_cons, quote, List.cons_append, List.cons_append, List.cons_append]
      at hmembers ⊢
    rw [valueAt_brace, hmembers]
    rfl

theorem Readable.readsBack {strict : Bool} {depth : Nat} {v : Json} (h : Readable depth v) :
    ∀ {limit : Nat}, depth ≤ limit → ReadsBack strict limit v := by
  induction h with
  | null =>
    intro limit _ fuel rest hfuel _
    obtain ⟨fuel, rfl⟩ : ∃ n, fuel = n + 1 := ⟨fuel - 1, by omega⟩
    rfl
  | bool b =>
    intro limit _ fuel rest hfuel _
    obtain ⟨fuel, rfl⟩ : ∃ n, fuel = n + 1 := ⟨fuel - 1, by omega⟩
    cases b <;> rfl
  | string t =>
    intro limit _ fuel rest hfuel _
    obtain ⟨fuel, rfl⟩ : ∃ n, fuel = n + 1 := ⟨fuel - 1, by omega⟩
    have hlen := length_le_length_quote t
    have hfits : t.length < fuel := by
      simp only [compact] at hfuel
      omega
    have hstring := stringAt_quote strict hfits rest
    rw [compact, quote, List.cons_append, List.cons_append] at *
    rw [valueAt, hstring]
    rfl
  | @number _ n hn =>
    intro limit _ fuel rest hfuel hrest
    obtain ⟨fuel, rfl⟩ : ∃ n, fuel = n + 1 := ⟨fuel - 1, by omega⟩
    obtain ⟨c, ds, hds, hc⟩ := isDigit_head_ofNat n
    have hscalar := scalarAt_ofNat strict hn hrest
    rw [show (ofNat n).compact = Digits.ofNat n from rfl, hds, List.cons_append] at *
    unfold valueAt
    split
    · next heq => cases heq; exact absurd hc (by decide)
    · next heq => cases heq; exact absurd hc (by decide)
    · next heq => cases heq; exact absurd hc (by decide)
    · exact hscalar
  | @array depth items h ih =>
    intro limit hle
    obtain ⟨limit, rfl⟩ : ∃ n, limit = n + 1 := ⟨limit - 1, by omega⟩
    exact readsBack_array (fun v hv => ih v hv (by omega)) (fun v hv => (h v hv).startsItem)
  | @object depth members h ih =>
    intro limit hle
    obtain ⟨limit, rfl⟩ : ∃ n, limit = n + 1 := ⟨limit - 1, by omega⟩
    exact readsBack_object (fun m hm => ih m hm (by omega)) (fun m hm => (h m hm).startsItem)

/-- **Reading gives back the value that was written.** -/
theorem read_compact {manner : Manner} {depth : Nat} {v : Json} (h : Readable depth v)
    (hd : depth ≤ manner.depth) : read manner v.compact = .ok v := by
  have hback : ReadsBack manner.strict manner.depth v := h.readsBack hd
  have hv := hback (2 * v.compact.length + 1) [] (le_refl _) trivial
  rw [List.append_nil] at hv
  have hskip := h.startsItem.skipSpace_append []
  rw [List.append_nil] at hskip
  unfold read valueOf
  rw [hskip, hv]
  rfl

end AttributeAccess.Json
