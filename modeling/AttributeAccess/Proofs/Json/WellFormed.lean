import AttributeAccess.Payload
import AttributeAccess.Proofs.Except
import AttributeAccess.Proofs.Json.RoundTrip

/-!
# JSON values of well-formed texts

A value is `WellFormed` if its texts are, the names of members included. Strict reading gives no
other value (`wellFormed_of_readStrict?`). Strict writing refuses a value only for a text that is not
well-formed (`strict_eq_ok`); in names alone the surrogates are replaced
(`WellFormed.withReplacedNames_eq`), and what is written then is well-formed all the same
(`Readable.wellFormed_withReplacedNames`).
-/

namespace AttributeAccess

namespace Json

inductive WellFormed : Json → Prop
  | null : WellFormed null
  | bool (b : Bool) : WellFormed (bool b)
  | number (n : Number) : WellFormed (number n)
  | string {t : Text} (h : t.WellFormed) : WellFormed (string t)
  | array {items : List Json} (h : ∀ v ∈ items, WellFormed v) : WellFormed (array items)
  | object {members : List (Text × Json)} (hnames : ∀ m ∈ members, m.1.WellFormed)
    (h : ∀ m ∈ members, WellFormed m.2) : WellFormed (object members)

/-! ## Strict writing -/

@[simp] theorem unencodable?_bool (b : Bool) : (bool b).unencodable? = none := rfl

@[simp] theorem unencodable?_number (n : Number) : (number n).unencodable? = none := rfl

@[simp] theorem unencodable?_string {t : Text} :
    (string t).unencodable? = none ↔ t.WellFormed := by
  rw [unencodable?]
  split <;> simp [*]

@[simp] theorem unencodable?_array {items : List Json} :
    (array items).unencodable? = none ↔ ∀ v ∈ items, v.unencodable? = none := by
  rw [unencodable?]
  induction items with
  | nil => simp [unencodableItem?]
  | cons v items ih => simp [unencodableItem?, Option.or_eq_none_iff, ih]

@[simp] theorem unencodable?_object {members : List (Text × Json)} :
    (object members).unencodable? = none ↔ ∀ m ∈ members, m.2.unencodable? = none := by
  rw [unencodable?]
  induction members with
  | nil => simp [unencodableMember?]
  | cons m members ih =>
    obtain ⟨name, v⟩ := m
    simp [unencodableMember?, Option.or_eq_none_iff, ih]

@[simp] theorem withReplacedNames_bool (b : Bool) : (bool b).withReplacedNames = bool b := rfl

@[simp] theorem withReplacedNames_number (n : Number) :
    (number n).withReplacedNames = number n := rfl

@[simp] theorem withReplacedNames_string (t : Text) :
    (string t).withReplacedNames = string t := rfl

@[simp] theorem withReplacedNames_array (items : List Json) :
    (array items).withReplacedNames = array (items.map withReplacedNames) := by
  rw [withReplacedNames]
  congr
  induction items with
  | nil => rfl
  | cons v items ih => rw [itemsWithReplacedNames, ih, List.map_cons]

@[simp] theorem withReplacedNames_object (members : List (Text × Json)) :
    (object members).withReplacedNames =
      object (members.map fun (name, v) => (name.replaced, v.withReplacedNames)) := by
  rw [withReplacedNames]
  congr
  induction members with
  | nil => rfl
  | cons m members ih => rw [membersWithReplacedNames, ih, List.map_cons]

/-- A value is written unless a text among its values cannot be encoded. -/
theorem strict_eq_ok {v : Json} {t : Text} :
    v.strict = .ok t ↔ v.unencodable? = none ∧ t = v.withReplacedNames.compact := by
  unfold strict
  split
  · next h => simp [h]
  · next h => simp [h, eq_comm]

theorem WellFormed.withReplacedNames_eq {v : Json} (h : v.WellFormed) :
    v.withReplacedNames = v := by
  induction h with
  | null => rfl
  | bool b => rfl
  | number n => rfl
  | string h => rfl
  | @array items _ ih =>
    rw [withReplacedNames_array]
    exact congrArg Json.array ((List.map_congr_left ih).trans (List.map_id items))
  | @object members hnames _ ih =>
    rw [withReplacedNames_object]
    refine congrArg Json.object ?_
    refine (List.map_congr_left fun m hm => ?_).trans (List.map_id members)
    exact Prod.ext (Text.replaced_of_wellFormed (hnames m hm)) (ih m hm)

theorem Readable.withReplacedNames {depth : Nat} {v : Json} (h : Readable depth v) :
    Readable depth v.withReplacedNames := by
  induction h with
  | null => exact .null
  | bool b => exact .bool b
  | string t => exact .string t
  | number h => exact .number h
  | array _ ih =>
    rw [withReplacedNames_array]
    exact .array (List.forall_mem_map.2 ih)
  | object _ ih =>
    rw [withReplacedNames_object]
    exact .object (List.forall_mem_map.2 ih)

theorem Readable.wellFormed_withReplacedNames {depth : Nat} {v : Json} (h : Readable depth v)
    (henc : v.unencodable? = none) : v.withReplacedNames.WellFormed := by
  induction h with
  | null => exact .null
  | bool b => exact .bool b
  | string t => exact .string (unencodable?_string.1 henc)
  | number h => exact .number _
  | array _ ih =>
    rw [withReplacedNames_array]
    exact .array (List.forall_mem_map.2 fun v hv => ih v hv (unencodable?_array.1 henc v hv))
  | object _ ih =>
    rw [withReplacedNames_object]
    refine .object (List.forall_mem_map.2 fun m _ => Text.wellFormed_replaced m.1) ?_
    exact List.forall_mem_map.2 fun m hm => ih m hm (unencodable?_object.1 henc m hm)

/-! ## The text of a value -/

theorem wellFormed_escapeChar {c : CodePoint} (h : c.isSurrogate = false) :
    (escapeChar c).WellFormed := by
  rcases escapeChar_cases c with ⟨e, he, -, hc⟩ | ⟨-, he⟩ | ⟨he, -⟩
  · cases e with
    | char e =>
      rw [he]
      exact Text.wellFormed_ofChars ['\\', e]
    | surrogate offset => cases hc
  · rw [he]
    exact Text.wellFormed_append.2
      ⟨Text.wellFormed_ofChars ['\\', 'u'], Hex.wellFormed_padded 4 c.toNat⟩
  · rw [he]
    exact Text.wellFormed_cons.2 ⟨h, Text.wellFormed_nil⟩

theorem wellFormed_quote {t : Text} (h : t.WellFormed) : (quote t).WellFormed := by
  refine Text.wellFormed_append.2 ⟨Text.wellFormed_cons.2 ⟨rfl, fun c hc => ?_⟩, by decide⟩
  obtain ⟨d, hd, hc⟩ := List.mem_flatMap.1 hc
  exact wellFormed_escapeChar (h d hd) c hc

theorem wellFormed_joinWith {mark : Text} (hmark : mark.WellFormed) {ts : List Text}
    (h : ∀ t ∈ ts, t.WellFormed) : (Text.joinWith mark ts).WellFormed := by
  induction ts with
  | nil => exact Text.wellFormed_nil
  | cons t ts ih =>
    rw [List.forall_mem_cons] at h
    cases ts with
    | nil => exact h.1
    | cons u ts =>
      exact Text.wellFormed_append.2 ⟨Text.wellFormed_append.2 ⟨h.1, hmark⟩, ih h.2⟩

theorem compactItems_eq_map (items : List Json) : compactItems items = items.map compact := by
  induction items with
  | nil => rfl
  | cons v items ih => rw [compactItems, ih, List.map_cons]

theorem compactMembers_eq_map (members : List (Text × Json)) :
    compactMembers members =
      members.map fun (name, v) => quote name ++ [.char ':'] ++ v.compact := by
  induction members with
  | nil => rfl
  | cons m members ih => rw [compactMembers, ih, List.map_cons]

theorem Readable.wellFormed_compact {depth : Nat} {v : Json} (h : Readable depth v)
    (hv : v.WellFormed) : v.compact.WellFormed := by
  induction h with
  | null => decide
  | bool b => cases b <;> decide
  | string t =>
    cases hv with
    | string ht => exact wellFormed_quote ht
  | @number _ n _ => exact Digits.wellFormed_ofNat n
  | @array _ items _ ih =>
    cases hv with
    | array hitems =>
      rw [compact, compactItems_eq_map, Text.wellFormed_append, Text.wellFormed_append]
      refine ⟨⟨by decide, wellFormed_joinWith (by decide) ?_⟩, by decide⟩
      exact List.forall_mem_map.2 fun v hv => ih v hv (hitems v hv)
  | @object _ members _ ih =>
    cases hv with
    | object hnames hvalues =>
      rw [compact, compactMembers_eq_map, Text.wellFormed_append, Text.wellFormed_append]
      refine ⟨⟨by decide, wellFormed_joinWith (by decide) ?_⟩, by decide⟩
      refine List.forall_mem_map.2 fun m hm => Text.wellFormed_append.2 ⟨?_, ih m hm (hvalues m hm)⟩
      exact Text.wellFormed_append.2 ⟨wellFormed_quote (hnames m hm), by decide⟩

/-! ## Strict reading -/

theorem hex4?_suffix {t rest : Text} {n : Nat} (h : hex4? t = some (n, rest)) : rest <:+ t := by
  unfold hex4? at h
  split at h
  · next a b c d t =>
    split at h
    · cases h
      exact List.suffix_append [a, b, c, d] rest
    · cases h
  · cases h

/-- The number of a pair lies beyond all surrogates. -/
theorem isSurrogate_pairOf (high low : Nat) : (Encoding.pairOf high low).isSurrogate = false := by
  unfold Encoding.pairOf
  exact CodePoint.isSurrogate_ofNat (.inr (by omega))

theorem loneSurrogate_strict {n : Nat} {t : Text} {r : CodePoint × Text} :
    loneSurrogate true n t ≠ .ok r :=
  nofun

/-- Strict reading makes a character of an escape, or of two of them. -/
theorem hexEscape_strict {t rest : Text} {c : CodePoint} (h : hexEscape true t = .ok (c, rest)) :
    c.isSurrogate = false ∧ rest <:+ t := by
  unfold hexEscape at h
  split at h
  · cases h
  split at h
  · cases h
  next n u hn =>
  have hu := hex4?_suffix hn
  split at h
  · next hplain =>
    cases h
    exact ⟨CodePoint.isSurrogate_ofNat (by omega), hu⟩
  next hhigh =>
  split at h
  · next v =>
    split at h
    · exact absurd h loneSurrogate_strict
    next hlow =>
    split at h
    · cases h
    split at h
    · cases h
    next m w hm =>
    split at h
    · obtain ⟨rfl, rfl⟩ := Prod.mk.inj (Except.ok.inj h)
      have hv : v <:+ .char '\\' :: .char 'u' :: v := List.suffix_append [_, _] v
      exact ⟨isSurrogate_pairOf n m, (hex4?_suffix hm).trans (hv.trans hu)⟩
    · exact absurd h loneSurrogate_strict
  · exact absurd h loneSurrogate_strict

theorem isSurrogate_of_escaped? {e c : CodePoint} (h : escaped? e = some c) :
    c.isSurrogate = false := by
  unfold escaped? at h
  split at h <;> cases h <;> rfl

/-- A string that is read from a well-formed text is well-formed, and so is what is left. -/
theorem stringBody_strict {start : Text} {fuel : Nat} {t s rest : Text} (ht : t.WellFormed)
    (h : stringBody true start fuel t = .ok (s, rest)) : s.WellFormed ∧ rest.WellFormed := by
  induction fuel generalizing t s rest with
  | zero => cases h
  | succ fuel ih =>
    have hcons : ∀ {c : CodePoint} {u : Text}, c.isSurrogate = false → u.WellFormed →
        (stringBody true start fuel u >>= fun p => .ok (c :: p.1, p.2)) = .ok (s, rest) →
        s.WellFormed ∧ rest.WellFormed := by
      intro c u hc hu hread
      obtain ⟨⟨cs, rest'⟩, hbody, heq⟩ := bind_eq_ok.1 hread
      obtain ⟨rfl, rfl⟩ := Prod.mk.inj (Except.ok.inj heq)
      obtain ⟨hcs, hrest⟩ := ih hu hbody
      exact ⟨Text.wellFormed_cons.2 ⟨hc, hcs⟩, hrest⟩
    rw [stringBody.eq_def] at h
    simp only at h
    split at h
    · cases h
    · next u =>
      obtain ⟨rfl, rfl⟩ := Prod.mk.inj (Except.ok.inj h)
      exact ⟨Text.wellFormed_nil, (Text.wellFormed_cons.1 ht).2⟩
    · cases h
    · next u =>
      obtain ⟨⟨c, v⟩, hescape, hread⟩ := bind_eq_ok.1 h
      obtain ⟨hc, hv⟩ := hexEscape_strict hescape
      exact hcons hc (ht.of_suffix (hv.trans (List.suffix_append [_, _] u))) hread
    · next e u _ =>
      split at h
      · cases h
      · next c hc =>
        exact hcons (isSurrogate_of_escaped? hc)
          (ht.of_suffix (List.suffix_append [_, _] u)) h
    · next c u _ _ _ =>
      obtain ⟨hc, hu⟩ := Text.wellFormed_cons.1 ht
      split at h
      · cases h
      · exact hcons hc hu h

theorem stringAt_strict {fuel : Nat} {t s rest : Text} (ht : t.WellFormed)
    (h : stringAt true fuel t = .ok (s, rest)) : s.WellFormed ∧ rest.WellFormed :=
  stringBody_strict (ht.of_suffix (List.tail_suffix t)) h

/-! ### Numbers and words -/

theorem digitsAt_suffix (t : Text) : (digitsAt t).2 <:+ t :=
  List.dropWhile_suffix _

theorem wholeAt?_suffix {t ds rest : Text} (h : wholeAt? t = some (ds, rest)) : rest <:+ t := by
  unfold wholeAt? at h
  split at h
  · cases h
    exact List.suffix_cons _ _
  · split at h
    · cases h
    · next heq =>
      cases h
      have hsuffix := digitsAt_suffix t
      rwa [heq] at hsuffix

theorem fractionAt_suffix (t : Text) : (fractionAt t).2 <:+ t := by
  unfold fractionAt
  split
  · next u =>
    split
    · exact List.suffix_rfl
    · next heq =>
      have hsuffix := digitsAt_suffix u
      rw [heq] at hsuffix
      exact hsuffix.trans (List.suffix_cons _ u)
  · exact List.suffix_rfl

theorem exponentAt_suffix (t : Text) : (exponentAt t).2 <:+ t := by
  unfold exponentAt
  split
  · next e u =>
    split
    · split
      next v hsign =>
      have hv : v <:+ u := by
        split at hsign <;> cases hsign
        · exact List.suffix_cons _ _
        · exact List.suffix_cons _ _
        · exact List.suffix_rfl
      split
      · exact List.suffix_rfl
      · next heq =>
        have hsuffix := digitsAt_suffix v
        rw [heq] at hsuffix
        exact (hsuffix.trans hv).trans (List.suffix_cons e u)
    · exact List.suffix_rfl
  · exact List.suffix_rfl

theorem magnitudeAt_suffix {strict negative : Bool} {t rest : Text} {n : Number}
    (h : magnitudeAt strict negative t = .ok (n, rest)) : rest <:+ t := by
  unfold magnitudeAt at h
  split at h
  · cases h
  · next whole u hwhole =>
    have hrest : (exponentAt (fractionAt u).2).2 <:+ t :=
      ((exponentAt_suffix _).trans (fractionAt_suffix u)).trans (wholeAt?_suffix hwhole)
    simp only at h
    split at h
    · cases h
    split at h
    · obtain ⟨-, rfl⟩ := Prod.mk.inj (Except.ok.inj h)
      exact hrest
    · obtain ⟨-, rfl⟩ := Prod.mk.inj (Except.ok.inj h)
      exact hrest

theorem suffix_of_isPrefixOf? {mark t rest : Text} (h : mark.isPrefixOf? t = some rest) :
    rest <:+ t :=
  ⟨mark, (Text.eq_append_of_isPrefixOf? h).symm⟩

theorem numberAt_suffix {strict : Bool} {t rest : Text} {n : Number}
    (h : numberAt strict t = .ok (n, rest)) : rest <:+ t := by
  unfold numberAt at h
  split at h
  · next u =>
    refine List.IsSuffix.trans ?_ (List.suffix_cons _ u)
    split at h
    · next hinfinity =>
      obtain ⟨-, rfl⟩ := Prod.mk.inj (Except.ok.inj h)
      exact suffix_of_isPrefixOf? hinfinity
    · exact magnitudeAt_suffix h
  · exact magnitudeAt_suffix h

theorem wordIn?_suffix {ws : List (Text × Json)} {t rest : Text} {v : Json}
    (h : wordIn? ws t = some (v, rest)) : (∃ w, (w, v) ∈ ws) ∧ rest <:+ t := by
  induction ws with
  | nil => cases h
  | cons w ws ih =>
    obtain ⟨w, u⟩ := w
    rw [wordIn?] at h
    split at h
    · next hword =>
      cases h
      exact ⟨⟨w, List.mem_cons_self⟩, suffix_of_isPrefixOf? hword⟩
    · obtain ⟨⟨w', hw'⟩, hrest⟩ := ih h
      exact ⟨⟨w', List.mem_cons_of_mem _ hw'⟩, hrest⟩

/-- A value that is no string and opens no bracket has no text. -/
theorem scalarAt_strict {t rest : Text} {v : Json} (ht : t.WellFormed)
    (h : scalarAt true t = .ok (v, rest)) : v.WellFormed ∧ rest.WellFormed := by
  unfold scalarAt at h
  split at h
  · next r hword =>
    cases h
    obtain ⟨⟨w, hw⟩, hrest⟩ := wordIn?_suffix hword
    refine ⟨?_, ht.of_suffix hrest⟩
    simp only [words, List.mem_cons, Prod.mk.injEq, List.not_mem_nil, or_false] at hw
    rcases hw with ⟨-, rfl⟩ | ⟨-, rfl⟩ | ⟨-, rfl⟩ | ⟨-, rfl⟩ | ⟨-, rfl⟩ <;> constructor
  · split at h
    · next hnumber =>
      cases h
      exact ⟨.number _, ht.of_suffix (numberAt_suffix hnumber)⟩
    · cases h

/-! ### Values -/

theorem wellFormed_skipSpace {t : Text} (ht : t.WellFormed) : (skipSpace t).WellFormed :=
  ht.of_suffix (List.dropWhile_suffix _)

/-- What is left behind the mark that comes next. -/
theorem wellFormed_behind {t u : Text} {mark : CodePoint} (ht : t.WellFormed)
    (h : skipSpace t = mark :: u) : u.WellFormed :=
  (Text.wellFormed_cons.1 (h ▸ wellFormed_skipSpace ht)).2

theorem WellFormed.array_cons {v : Json} {vs : List Json} (hv : v.WellFormed)
    (h : (Json.array vs).WellFormed) : (Json.array (v :: vs)).WellFormed := by
  cases h with
  | array h => exact .array (List.forall_mem_cons.2 ⟨hv, h⟩)

theorem WellFormed.object_cons {name : Text} {v : Json} {ms : List (Text × Json)}
    (hname : name.WellFormed) (hv : v.WellFormed) (h : (Json.object ms).WellFormed) :
    (Json.object ((name, v) :: ms)).WellFormed := by
  cases h with
  | object hnames h =>
    exact .object (List.forall_mem_cons.2 ⟨hname, hnames⟩) (List.forall_mem_cons.2 ⟨hv, h⟩)

/-- With so many steps, reading keeps to well-formed texts: both what is read and what is left. -/
structure KeepsWellFormed (fuel : Nat) : Prop where
  value : ∀ {depth t v rest}, Text.WellFormed t → valueAt true fuel depth t = .ok (v, rest) →
    v.WellFormed ∧ rest.WellFormed
  items : ∀ {depth t vs rest}, Text.WellFormed t → itemsAt true fuel depth t = .ok (vs, rest) →
    (array vs).WellFormed ∧ rest.WellFormed
  members : ∀ {depth t ms rest}, Text.WellFormed t →
    membersAt true fuel depth t = .ok (ms, rest) → (object ms).WellFormed ∧ rest.WellFormed

namespace KeepsWellFormed

variable {fuel depth : Nat} {t rest : Text}

theorem value_succ (ih : KeepsWellFormed fuel) {v : Json} (ht : t.WellFormed)
    (h : valueAt true (fuel + 1) depth t = .ok (v, rest)) : v.WellFormed ∧ rest.WellFormed := by
  unfold valueAt at h
  split at h
  · obtain ⟨⟨s, u⟩, hstring, heq⟩ := bind_eq_ok.1 h
    obtain ⟨rfl, rfl⟩ := Prod.mk.inj (Except.ok.inj heq)
    obtain ⟨hs, hrest⟩ := stringAt_strict ht hstring
    exact ⟨.string hs, hrest⟩
  · next u =>
    have hu := (Text.wellFormed_cons.1 ht).2
    split at h
    · next hclose =>
      obtain ⟨rfl, rfl⟩ := Prod.mk.inj (Except.ok.inj h)
      exact ⟨.array (by simp), wellFormed_behind hu hclose⟩
    · split at h
      · cases h
      · obtain ⟨⟨vs, w⟩, hitems, heq⟩ := bind_eq_ok.1 h
        obtain ⟨rfl, rfl⟩ := Prod.mk.inj (Except.ok.inj heq)
        exact ih.items (wellFormed_skipSpace hu) hitems
  · next u =>
    have hu := (Text.wellFormed_cons.1 ht).2
    split at h
    · next hclose =>
      obtain ⟨rfl, rfl⟩ := Prod.mk.inj (Except.ok.inj h)
      exact ⟨.object (by simp) (by simp), wellFormed_behind hu hclose⟩
    · split at h
      · cases h
      · obtain ⟨⟨ms, w⟩, hmembers, heq⟩ := bind_eq_ok.1 h
        obtain ⟨rfl, rfl⟩ := Prod.mk.inj (Except.ok.inj heq)
        exact ih.members (wellFormed_skipSpace hu) hmembers
  · exact scalarAt_strict ht h

theorem items_succ (ih : KeepsWellFormed fuel) {vs : List Json} (ht : t.WellFormed)
    (h : itemsAt true (fuel + 1) depth t = .ok (vs, rest)) :
    (array vs).WellFormed ∧ rest.WellFormed := by
  unfold itemsAt at h
  obtain ⟨⟨v, u⟩, hvalue, h⟩ := bind_eq_ok.1 h
  obtain ⟨hv, hu⟩ := ih.value ht hvalue
  simp only at h
  split at h
  · next hclose =>
    obtain ⟨rfl, rfl⟩ := Prod.mk.inj (Except.ok.inj h)
    exact ⟨hv.array_cons (.array (by simp)), wellFormed_behind hu hclose⟩
  · next hcomma =>
    obtain ⟨⟨vs, w⟩, hitems, heq⟩ := bind_eq_ok.1 h
    obtain ⟨rfl, rfl⟩ := Prod.mk.inj (Except.ok.inj heq)
    obtain ⟨hvs, hw⟩ := ih.items (wellFormed_skipSpace (wellFormed_behind hu hcomma)) hitems
    exact ⟨hv.array_cons hvs, hw⟩
  · cases h

theorem members_succ (ih : KeepsWellFormed fuel) {ms : List (Text × Json)} (ht : t.WellFormed)
    (h : membersAt true (fuel + 1) depth t = .ok (ms, rest)) :
    (object ms).WellFormed ∧ rest.WellFormed := by
  unfold membersAt at h
  split at h
  · obtain ⟨⟨name, u⟩, hstring, h⟩ := bind_eq_ok.1 h
    obtain ⟨hname, hu⟩ := stringAt_strict ht hstring
    simp only at h
    split at h
    · next hcolon =>
      obtain ⟨⟨v, w⟩, hvalue, h⟩ := bind_eq_ok.1 h
      obtain ⟨hv, hw⟩ := ih.value (wellFormed_skipSpace (wellFormed_behind hu hcolon)) hvalue
      simp only at h
      split at h
      · next hclose =>
        obtain ⟨rfl, rfl⟩ := Prod.mk.inj (Except.ok.inj h)
        exact ⟨.object_cons hname hv (.object (by simp) (by simp)), wellFormed_behind hw hclose⟩
      · next hcomma =>
        obtain ⟨⟨ms, x⟩, hmembers, heq⟩ := bind_eq_ok.1 h
        obtain ⟨rfl, rfl⟩ := Prod.mk.inj (Except.ok.inj heq)
        obtain ⟨hms, hx⟩ :=
          ih.members (wellFormed_skipSpace (wellFormed_behind hw hcomma)) hmembers
        exact ⟨.object_cons hname hv hms, hx⟩
      · cases h
    · cases h
  · cases h

end KeepsWellFormed

theorem keepsWellFormed (fuel : Nat) : KeepsWellFormed fuel := by
  induction fuel with
  | zero => exact ⟨nofun, nofun, nofun⟩
  | succ fuel ih => exact ⟨ih.value_succ, ih.items_succ, ih.members_succ⟩

theorem wellFormed_of_read {depth : Nat} {t : Text} {v : Json} (ht : t.WellFormed)
    (h : read ⟨true, depth⟩ t = .ok v) : v.WellFormed := by
  unfold read valueOf at h
  split at h
  · next hvalue =>
    split at hvalue
    · cases hvalue
    · next hread =>
      obtain ⟨hv, -⟩ := (keepsWellFormed _).value (wellFormed_skipSpace ht) hread
      split at hvalue
      · cases hvalue
        cases h
        exact hv
      · cases hvalue
  · cases h

end Json

namespace Payload

/-- Strict reading gives values of well-formed texts only. -/
theorem wellFormed_of_readStrict? {p : Payload} {v : Json} (h : p.readStrict? = some v) :
    v.WellFormed := by
  obtain ⟨cs, -, hread⟩ := Option.bind_eq_some_iff.1 h
  cases hv : Json.read ⟨true, strictDepth⟩ (.ofChars cs) with
  | error f => simp [hv, Except.toOption] at hread
  | ok w =>
    simp only [hv, Except.toOption, Option.some.injEq] at hread
    exact hread ▸ Json.wellFormed_of_read (Text.wellFormed_ofChars cs) hv

theorem readStrict?_compact {v : Json} {depth : Nat} (hv : Json.Readable depth v)
    (hwell : v.WellFormed) (hdepth : depth ≤ strictDepth) :
    (text v.compact).readStrict? = some v := by
  obtain ⟨cs, hcs⟩ := Text.wellFormed_iff.1 (hv.wellFormed_compact hwell)
  have hchars : (text v.compact).chars? = some cs := Text.chars?_eq_some_iff.2 hcs
  have hread : Json.read ⟨true, strictDepth⟩ v.compact = .ok v := Json.read_compact hv hdepth
  rw [readStrict?, hchars, Option.bind_some, ← hcs, hread]
  rfl

end Payload

end AttributeAccess
