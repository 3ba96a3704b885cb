import AttributeAccess.Proofs.Expression.Grammar

/-!
# The blanks of an expression go

`withoutBlanks_spaced`: whatever blanks stand around the tokens of an expression, the passes over
the five marks leave its written form. One pass treats the pieces between two occurrences of its
mark; `tightenFrom` is such a pass that starts inside a piece, so that a pass can be followed token
by token. The invariant is `Laid loose`: blanks are left only between neighbours that are both
`loose`, and each pass takes its mark and the ends of the text out of these (`Laid.pass`).
-/

namespace AttributeAccess.Expression

/-! ## No mark starts inside another token -/

theorem Mark.text_eq_cons (m : Mark) : ∃ rest, m.text = m.char :: rest := by
  rcases m.text_eq with he | he
  · exact ⟨[], he⟩
  · exact ⟨[m.char], he⟩

theorem clear_of_char_not_mem {m : Mark} {w : Text} (h : m.char ∉ w) (t : Text) :
    Text.Clear m.text w t := by
  obtain ⟨rest, he⟩ := m.text_eq_cons
  rw [he]
  exact Text.clear_of_not_mem h t

theorem char_not_mem_gap {gap : Text} (h : gap.AllBlank) (m : Mark) : m.char ∉ gap := by
  intro hc
  have hblank := h m.char hc
  rw [m.isBlank_char] at hblank
  cases hblank

theorem clear_gap {gap : Text} (h : gap.AllBlank) (m : Mark) (t : Text) :
    Text.Clear m.text gap t :=
  clear_of_char_not_mem (char_not_mem_gap h m) t

theorem clear_mark {m n : Mark} (h : n ≠ m) (t : Text) : Text.Clear m.text n.text t :=
  clear_of_char_not_mem (fun hc => h (Mark.char_injective (Mark.char_of_mem hc).symm)) t

theorem Plain.clear {w t : Text} {m : Mark} (h : Plain w)
    (hend : w.getLast? = some m.char → t.head? ≠ some m.char) : Text.Clear m.text w t := by
  rcases m.text_eq with he | he
  · exact clear_of_char_not_mem (h.not_mem he) t
  · have hinfix := h.not_infix m
    rw [he] at hinfix ⊢
    exact Text.clear_of_double hinfix hend

/-- What follows a word does not go on with the last character of the word. -/
theorem Spaced.head?_ne {ts : List Token} {w t : Text} {m : Mark} (ht : Spaced ts t)
    (hr : Regular (.word w :: ts)) (hlast : w.getLast? = some m.char) :
    t.head? ≠ some m.char := by
  cases ht with
  | nil h =>
    intro hhead
    exact char_not_mem_gap h m (List.mem_of_head? hhead)
  | @cons gap t ts token h ht =>
    cases gap with
    | cons c gap =>
      intro hhead
      cases hhead
      exact char_not_mem_gap h m List.mem_cons_self
    | nil =>
      have hnext := hr.2.1 token rfl
      cases token with
      | word u => exact absurd hnext id
      | mark n =>
        obtain ⟨rest, he⟩ := n.text_eq_cons
        show (([] : Text) ++ n.text ++ t).head? ≠ some m.char
        rw [he]
        intro hhead
        have hchar : n.char = m.char := Option.some.inj hhead
        exact hnext (hchar ▸ hlast)

theorem Regular.tail {token : Token} {ts : List Token} (h : Regular (token :: ts)) : Regular ts :=
  h.2.2

theorem Regular.solid {token : Token} {ts : List Token} (h : Regular (token :: ts)) :
    token.text.Solid := by
  cases token with
  | mark m => exact m.solid
  | word w => exact (h.1 w rfl).solid

/-- In the text of regular tokens a mark starts at its own tokens only. -/
theorem Regular.clear {token : Token} {ts : List Token} {m : Mark} {t : Text}
    (h : Regular (token :: ts)) (ht : Spaced ts t) (hne : token ≠ .mark m) :
    Text.Clear m.text token.text t := by
  cases token with
  | mark n => exact clear_mark (fun he => hne (congrArg Token.mark he)) t
  | word w => exact (h.1 w rfl).clear fun hlast => ht.head?_ne h hlast

/-! ## One pass -/

/-- A pass over a text whose first piece is treated in a way of its own. -/
def tightenFrom (first : Text → Text) (mark t : Text) : Text :=
  match Text.splitOn mark t with
  | [] => []
  | piece :: pieces => Text.joinWith mark (first piece :: pieces.map Text.trim)

theorem splitOn_eq_cons (mark t : Text) : ∃ piece pieces, Text.splitOn mark t = piece :: pieces :=
  List.exists_cons_of_ne_nil (Text.splitTimes_ne_nil mark t.length t)

theorem tightenFrom_trim (mark t : Text) : tightenFrom Text.trim mark t = tighten mark t := by
  obtain ⟨piece, pieces, hs⟩ := splitOn_eq_cons mark t
  unfold tightenFrom tighten
  rw [hs]
  rfl

theorem tightenFrom_self_append {mark : Text} (hm : mark ≠ []) (first : Text → Text) (t : Text) :
    tightenFrom first mark (mark ++ t) = first [] ++ mark ++ tighten mark t := by
  obtain ⟨piece, pieces, hs⟩ := splitOn_eq_cons mark t
  unfold tightenFrom tighten
  rw [Text.splitOn_self_append hm, hs]
  rfl

theorem tightenFrom_append {mark w t : Text} (hm : mark ≠ []) (h : Text.Clear mark w t)
    (first : Text → Text) :
    tightenFrom first mark (w ++ t) = tightenFrom (fun piece => first (w ++ piece)) mark t := by
  obtain ⟨piece, pieces, hs⟩ := splitOn_eq_cons mark t
  unfold tightenFrom
  rw [Text.splitOn_append hm h, hs]
  rfl

theorem tightenFrom_put (first : Text → Text) (mark w t : Text) :
    tightenFrom (fun piece => w ++ first piece) mark t = w ++ tightenFrom first mark t := by
  obtain ⟨piece, pieces, hs⟩ := splitOn_eq_cons mark t
  unfold tightenFrom
  rw [hs]
  cases pieces with
  | nil => rfl
  | cons next pieces => simp [Text.joinWith]

theorem tightenFrom_gap {gap : Text} (h : gap.AllBlank) (first : Text → Text) (m : Mark) :
    tightenFrom first m.text gap = first gap := by
  unfold tightenFrom
  rw [Text.splitOn_eq_of_clear (clear_gap h m [])]
  rfl

theorem tightenFrom_mark {gap : Text} (h : gap.AllBlank) {first : Text → Text}
    (hfirst : first gap = []) (m : Mark) (t : Text) :
    tightenFrom first m.text (gap ++ m.text ++ t) = m.text ++ tighten m.text t := by
  rw [List.append_assoc, tightenFrom_append m.text_ne_nil (clear_gap h m _),
    tightenFrom_self_append m.text_ne_nil, List.append_nil, hfirst]
  rfl

/-! ## Where blanks are left -/

/-- The tokens in order, with blanks only between neighbours that are both loose; `before` is the
token that the text follows, if any. -/
inductive Laid (loose : Option Token → Prop) : (before : Option Token) → List Token → Text → Prop
  | nil {before : Option Token} {gap : Text} (h : gap.AllBlank)
    (hgap : gap = [] ∨ loose before ∧ loose none) : Laid loose before [] gap
  | cons {before : Option Token} {gap t : Text} {ts : List Token} (token : Token)
    (h : gap.AllBlank) (hgap : gap = [] ∨ loose before ∧ loose (some token))
    (ht : Laid loose (some token) ts t) : Laid loose before (token :: ts) (gap ++ token.text ++ t)

variable {loose : Option Token → Prop} {before : Option Token} {ts : List Token} {t : Text}

theorem Laid.spaced (h : Laid loose before ts t) : Spaced ts t := by
  induction h with
  | nil h _ => exact .nil h
  | cons token h _ _ ih => exact .cons token h ih

theorem Spaced.laid (h : Spaced ts t) (before : Option Token) :
    Laid (fun _ => True) before ts t := by
  induction h generalizing before with
  | nil h => exact .nil h (.inr ⟨trivial, trivial⟩)
  | cons token h _ ih => exact .cons token h (.inr ⟨trivial, trivial⟩) (ih (some token))

theorem Laid.mono {loose' : Option Token → Prop} (h : Laid loose before ts t)
    (hl : ∀ side, loose side → loose' side) : Laid loose' before ts t := by
  induction h with
  | nil h hgap => exact .nil h (hgap.imp_right fun hg => ⟨hl _ hg.1, hl _ hg.2⟩)
  | cons token h hgap _ ih =>
    exact .cons token h (hgap.imp_right fun hg => ⟨hl _ hg.1, hl _ hg.2⟩) ih

/-- The sides from which the pass over a mark takes the blanks. -/
def Bare (m : Mark) (side : Option Token) : Prop := side = none ∨ side = some (.mark m)

/-- Behind the mark or at the start of the text a pass trims the next piece on both sides;
elsewhere it is inside a piece already. -/
theorem Laid.pass_aux (m : Mark) (h : Laid loose before ts t) (hr : Regular ts) :
    (Bare m before →
      Laid (fun side => loose side ∧ ¬ Bare m side) before ts (tighten m.text t)) ∧
    (¬ Bare m before →
      Laid (fun side => loose side ∧ ¬ Bare m side) before ts
        (tightenFrom Text.trimEnd m.text t)) := by
  induction h with
  | nil h _ =>
    rw [← tightenFrom_trim, tightenFrom_gap h, tightenFrom_gap h, h.trim_eq_nil, h.trimEnd_eq_nil]
    exact ⟨fun _ => .nil Text.allBlank_nil (.inl rfl), fun _ => .nil Text.allBlank_nil (.inl rfl)⟩
  | @cons before gap t ts token h hgap ht ih =>
    obtain ⟨ihbare, ihinside⟩ := ih hr.tail
    by_cases htoken : token = .mark m
    · subst htoken
      have hrest := ihbare (.inr rfl)
      have hlaid : Laid (fun side => loose side ∧ ¬ Bare m side) before (.mark m :: ts)
          (m.text ++ tighten m.text t) :=
        .cons (.mark m) Text.allBlank_nil (.inl rfl) hrest
      refine ⟨fun _ => ?_, fun _ => ?_⟩
      · rw [← tightenFrom_trim]
        show Laid _ _ _ (tightenFrom _ m.text (gap ++ m.text ++ t))
        rwa [tightenFrom_mark h h.trim_eq_nil]
      · show Laid _ _ _ (tightenFrom _ m.text (gap ++ m.text ++ t))
        rwa [tightenFrom_mark h h.trimEnd_eq_nil]
    · have hloose : ¬ Bare m (some token) := by
        rintro (hnone | hmark)
        · cases hnone
        · exact htoken (Option.some.inj hmark)
      have hrest := ihinside hloose
      have hsolid := hr.solid
      have hclear : Text.Clear m.text (gap ++ token.text) t :=
        Text.clear_append.2 ⟨clear_gap h m _, hr.clear ht.spaced htoken⟩
      refine ⟨fun _ => ?_, fun hbefore => ?_⟩
      · rw [← tightenFrom_trim, tightenFrom_append m.text_ne_nil hclear]
        simp only [hsolid.trim_append h]
        rw [tightenFrom_put]
        exact .cons token Text.allBlank_nil (.inl rfl) hrest
      · rw [tightenFrom_append m.text_ne_nil hclear]
        simp only [hsolid.trimEnd_append]
        rw [tightenFrom_put]
        exact .cons token h (hgap.imp_right fun hg => ⟨⟨hg.1, hbefore⟩, hg.2, hloose⟩) hrest

theorem Laid.pass (m : Mark) (h : Laid loose none ts t) (hr : Regular ts) :
    Laid (fun side => loose side ∧ ¬ Bare m side) none ts (tighten m.text t) :=
  (h.pass_aux m hr).1 (.inl rfl)

/-! ## All passes -/

theorem Laid.passes (ms : List Mark) (h : Laid loose none ts t) (hr : Regular ts) :
    Laid (fun side => loose side ∧ ∀ m ∈ ms, ¬ Bare m side) none ts
      ((ms.map Mark.text).foldl (fun t mark => tighten mark t) t) := by
  induction ms generalizing loose t with
  | nil => exact h.mono fun side hl => ⟨hl, fun m hm => by cases hm⟩
  | cons m ms ih =>
    refine (ih (h.pass m hr)).mono ?_
    rintro side ⟨⟨hl, hm⟩, hms⟩
    exact ⟨hl, List.forall_mem_cons.2 ⟨hm, hms⟩⟩

/-- Between regular tokens there is no place for blanks that only words leave. -/
theorem Laid.eq_written (h : Laid loose before ts t) (hr : Regular (before.toList ++ ts))
    (hl : ∀ side, loose side → ∃ w, side = some (.word w)) : t = written ts := by
  induction h with
  | nil h hgap =>
    rcases hgap with rfl | ⟨-, hnone⟩
    · rfl
    · obtain ⟨w, hw⟩ := hl none hnone
      cases hw
  | @cons before gap t ts token h hgap ht ih =>
    have hts : Regular (token :: ts) := by
      cases before with
      | none => exact hr
      | some token => exact hr.tail
    have hnil : gap = [] := by
      rcases hgap with rfl | ⟨hbefore, htoken⟩
      · rfl
      · obtain ⟨u, rfl⟩ := hl before hbefore
        obtain ⟨w, hw⟩ := hl (some token) htoken
        cases hw
        exact absurd (hr.2.1 _ rfl) id
    subst hnil
    rw [ih hts]
    rfl

theorem withoutBlanks_spaced (h : Spaced ts t) (hr : Regular ts) : withoutBlanks t = written ts := by
  have hlaid := (h.laid none).passes [.opening, .closing, .or, .and, .separator] hr
  refine hlaid.eq_written hr ?_
  rintro side ⟨-, hside⟩
  cases side with
  | none => exact absurd (.inl rfl) (hside .opening (by simp))
  | some token =>
    cases token with
    | word w => exact ⟨w, rfl⟩
    | mark m =>
      refine absurd (.inr rfl) (hside m ?_)
      cases m <;> simp

end AttributeAccess.Expression
