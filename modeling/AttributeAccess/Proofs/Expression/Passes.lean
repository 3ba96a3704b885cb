import AttributeAccess.Proofs.Expression.Spaces
import AttributeAccess.Proofs.Text.Rows
import AttributeAccess.Proofs.Text.Thinning

/-!
# The passes over a text in parts

What the passes over the marks do to a text is what they do to its parts, where the parts end and
start with characters that are not blank: around a mark (`withoutBlanks_around`) and between
parentheses (`withoutBlanks_group`). No grammar is needed for that, only that no occurrence of a
mark straddles the place where the parts meet (`Joint`). Each pass leaves out blanks and nothing
else (`thinned_withoutBlanks`).

Where blanks stand between two parts, one pass keeps all of them or none: it keeps them if a piece
between two of its marks goes on on both sides (`Inside`, `tighten_gap_of_inside`), and it changes
nothing at all where no blank stands beside its mark (`tighten_of_tight`).
-/

namespace AttributeAccess.Expression

/-- The text after the passes over some marks, one after another. -/
def passes (ms : List Mark) (t : Text) : Text :=
  ms.foldl (fun t m => tighten m.text t) t

theorem passes_nil (t : Text) : passes [] t = t := rfl

theorem passes_cons (m : Mark) (ms : List Mark) (t : Text) :
    passes (m :: ms) t = passes ms (tighten m.text t) := rfl

theorem passes_append (ms ns : List Mark) (t : Text) :
    passes (ms ++ ns) t = passes ns (passes ms t) :=
  List.foldl_append

/-- The marks in the order of their passes. -/
def Mark.inOrder : List Mark := [.opening, .closing, .or, .and, .separator]

theorem withoutBlanks_eq_passes (t : Text) : withoutBlanks t = passes Mark.inOrder t := rfl

theorem Mark.nodup_inOrder : inOrder.Nodup := by decide

theorem Mark.mem_inOrder (m : Mark) : m ∈ inOrder := by
  cases m <;> decide

theorem Mark.startsSolid_append (m : Mark) (t : Text) : (m.text ++ t).StartsSolid := by
  obtain ⟨rest, he⟩ := m.text_eq_cons
  rw [he]
  intro c hc
  cases hc
  exact m.isBlank_char

theorem Mark.startsSolid (m : Mark) : m.text.StartsSolid := by
  have h := m.startsSolid_append []
  rwa [List.append_nil] at h

theorem Mark.head?_append (m : Mark) (t : Text) : (m.text ++ t).head? = some m.char := by
  obtain ⟨rest, he⟩ := m.text_eq_cons
  rw [he]
  rfl

theorem Mark.getLast?_text (m : Mark) : m.text.getLast? = some m.char := by
  rcases m.text_eq with he | he <;> rw [he] <;> rfl

theorem Mark.endsSolid (m : Mark) : m.text.EndsSolid := by
  intro c hc
  rw [m.getLast?_text] at hc
  cases hc
  exact m.isBlank_char

/-! ## Only blanks are left out -/

theorem thinned_tighten (mark t : Text) : Text.Thinned (tighten mark t) t := by
  have h := Text.Thinned.joinWith_map mark Text.Thinned.trim (Text.splitOn mark t)
  rwa [Text.joinWith_splitOn] at h

theorem thinned_passes (ms : List Mark) (t : Text) : Text.Thinned (passes ms t) t := by
  induction ms generalizing t with
  | nil => exact .refl t
  | cons m ms ih => exact (ih _).trans (thinned_tighten m.text t)

theorem thinned_withoutBlanks (t : Text) : Text.Thinned (withoutBlanks t) t :=
  thinned_passes Mark.inOrder t

/-! ## One pass over two parts -/

/-- No occurrence of the mark straddles the place where the parts meet: the mark is a single
character, or not both characters there are its own. -/
def Joint (m : Mark) (u x : Text) : Prop :=
  m.text = [m.char] ∨ u.getLast? ≠ some m.char ∨ x.head? ≠ some m.char

theorem head?_gap_ne {gap : Text} (hgap : gap.AllBlank) (hne : gap ≠ []) (m : Mark) (v : Text) :
    (gap ++ v).head? ≠ some m.char := by
  obtain ⟨c, gap, rfl⟩ := List.exists_cons_of_ne_nil hne
  intro hhead
  cases hhead
  exact char_not_mem_gap hgap m List.mem_cons_self

/-- Blanks between them keep the characters of a mark apart. -/
theorem joint_gap {m : Mark} {u gap v : Text} (hgap : gap.AllBlank) (hne : gap ≠ []) :
    Joint m u (gap ++ v) :=
  .inr (.inr (head?_gap_ne hgap hne m v))

theorem clear_of_absent {m : Mark} {u x : Text} (h : ¬ m.text <:+: u) (hj : Joint m u x) :
    Text.Clear m.text u x := by
  rcases m.text_eq with he | he
  · exact clear_of_char_not_mem (Mark.char_not_mem he h) x
  · have hends : u.getLast? ≠ some m.char ∨ x.head? ≠ some m.char := by
      rcases hj with hsingle | hends
      · rw [he] at hsingle
        cases hsingle
      · exact hends
    rw [he] at h ⊢
    exact Text.clear_of_double h fun hlast => hends.resolve_left (fun hne => hne hlast)

theorem tightenFrom_of_cut? {m : Mark} {t before after : Text}
    (h : Text.cut? m.text t = some (before, after)) (first : Text → Text) :
    tightenFrom first m.text t = first before ++ m.text ++ tighten m.text after := by
  unfold tightenFrom tighten
  rw [Text.splitOn_of_cut?_eq_some m.text_ne_nil h]
  exact Text.joinWith_cons (mt List.map_eq_nil_iff.1 (Text.splitTimes_ne_nil _ _ _))

theorem tighten_of_cut? {m : Mark} {t before after : Text}
    (h : Text.cut? m.text t = some (before, after)) :
    tighten m.text t = before.trim ++ m.text ++ tighten m.text after := by
  rw [← tightenFrom_trim, tightenFrom_of_cut? h]

theorem tightenFrom_of_absent {m : Mark} {t : Text} (h : ¬ m.text <:+: t)
    (first : Text → Text) : tightenFrom first m.text t = first t := by
  unfold tightenFrom
  rw [Text.splitOn_of_cut?_eq_none ((Text.cut?_eq_none_iff m.text_ne_nil).2 h)]
  rfl

theorem tighten_of_absent {m : Mark} {t : Text} (h : ¬ m.text <:+: t) :
    tighten m.text t = t.trim := by
  rw [← tightenFrom_trim, tightenFrom_of_absent h]

/-! ## Blanks between two parts -/

theorem Mark.text_eq_replicate (m : Mark) : m.text = List.replicate m.text.length m.char := by
  rcases m.text_eq with he | he <;> rw [he] <;> rfl

theorem Mark.length_text_pos (m : Mark) : 0 < m.text.length :=
  List.length_pos_iff.2 m.text_ne_nil

/-- The pass finds its mark at the very end of the text. Marks are found from left to right without
overlap, so the row of their character there is taken up by them. -/
def FoundAtEnd (m : Mark) (u : Text) : Prop :=
  0 < u.row m.char ∧ m.text.length ∣ u.row m.char

instance (m : Mark) (u : Text) : Decidable (FoundAtEnd m u) :=
  inferInstanceAs (Decidable (_ ∧ _))

theorem FoundAtEnd.getLast?_eq {m : Mark} {u : Text} (h : FoundAtEnd m u) :
    u.getLast? = some m.char :=
  Text.getLast?_of_row_pos h.1

theorem FoundAtEnd.endsSolid {m : Mark} {u : Text} (h : FoundAtEnd m u) : u.EndsSolid := by
  intro c hc
  rw [h.getLast?_eq] at hc
  cases hc
  exact m.isBlank_char

theorem FoundAtEnd.suffix {m : Mark} {u : Text} (h : FoundAtEnd m u) : m.text <:+ u := by
  obtain ⟨x, hu, -⟩ := Text.exists_row m.char u
  have hle : m.text.length ≤ u.row m.char := Nat.le_of_dvd h.1 h.2
  refine ⟨x ++ List.replicate (u.row m.char - m.text.length) m.char, ?_⟩
  have hrow : List.replicate (u.row m.char - m.text.length) m.char ++ m.text =
      List.replicate (u.row m.char) m.char := by
    conv_lhs => rw [m.text_eq_replicate]
    rw [List.length_replicate, List.replicate_append_replicate, Nat.sub_add_cancel hle]
  rw [List.append_assoc, hrow, ← hu]

theorem getLast?_ne_of_cut? {m : Mark} {u before after : Text}
    (h : Text.cut? m.text u = some (before, after)) : before.getLast? ≠ some m.char := by
  have hclear := Text.clear_of_cut? h
  rcases m.text_eq with he | he
  · have hin := Text.not_infix_of_clear m.text_ne_nil hclear
    exact fun hlast => Mark.char_not_mem he hin (List.mem_of_getLast? hlast)
  · rw [he] at hclear
    exact Text.getLast?_ne_of_clear hclear

/-- Behind the first mark the search goes on as if the text started there. -/
theorem foundAtEnd_of_cut? {m : Mark} {u before after : Text}
    (h : Text.cut? m.text u = some (before, after)) :
    FoundAtEnd m u ↔ after = [] ∨ FoundAtEnd m after := by
  have hbefore : (before ++ m.text).row m.char = m.text.length := by
    conv_lhs => rw [m.text_eq_replicate]
    exact Text.row_append_replicate (getLast?_ne_of_cut? h) _
  have hpos := m.length_text_pos
  rw [Text.eq_append_of_cut? h, FoundAtEnd, Text.row_append, hbefore]
  by_cases hrow : after.row m.char = after.length
  · rw [if_pos hrow, FoundAtEnd, hrow, Nat.dvd_add_right (Nat.dvd_refl _), List.length_pos_iff]
    rw [and_iff_right (Nat.add_pos_left hpos _)]
    by_cases hnil : after = []
    · simp [hnil]
    · simp [hnil]
  · rw [if_neg hrow]
    have hne : after ≠ [] := by
      rintro rfl
      exact hrow rfl
    simp [hne, FoundAtEnd]

/-- Behind a mark a pass starts anew. -/
theorem tighten_append_of_foundAtEnd {m : Mark} {u : Text} (h : u = [] ∨ FoundAtEnd m u)
    (x : Text) : tighten m.text (u ++ x) = tighten m.text u ++ tighten m.text x := by
  induction u using Text.cut?_induction m.text_ne_nil with
  | last u hcut =>
    rcases h with rfl | hfound
    · rfl
    · exact absurd hfound.suffix.isInfix ((Text.cut?_eq_none_iff m.text_ne_nil).1 hcut)
  | step u before after hcut ih =>
    have hne : u ≠ [] := by
      rintro rfl
      cases hcut
    rw [tighten_of_cut? hcut, tighten_of_cut? (Text.cut?_append_right m.text_ne_nil hcut x),
      ih ((foundAtEnd_of_cut? hcut).1 (h.resolve_left hne))]
    simp only [List.append_assoc]

/-- Behind any other text that ends solid it goes on inside a piece. -/
theorem tighten_append_of_not_foundAtEnd {m : Mark} {u x : Text} (hu : u.EndsSolid)
    (hj : Joint m u x) (hne : u ≠ []) (h : ¬ FoundAtEnd m u) :
    tighten m.text (u ++ x) = tighten m.text u ++ tightenFrom Text.trimEnd m.text x := by
  induction u using Text.cut?_induction m.text_ne_nil with
  | last u hcut =>
    have hin := (Text.cut?_eq_none_iff m.text_ne_nil).1 hcut
    rw [← tightenFrom_trim, tightenFrom_append m.text_ne_nil (clear_of_absent hin hj),
      tighten_of_absent hin]
    simp only [hu.trim_append hne]
    exact tightenFrom_put _ _ _ _
  | step u before after hcut ih =>
    have hself : u = before ++ m.text ++ after := Text.eq_append_of_cut? hcut
    rw [foundAtEnd_of_cut? hcut, not_or] at h
    have hlast : ∀ c, after.getLast? = some c → u.getLast? = some c := by
      intro c hc
      rw [hself, List.getLast?_append, hc]
      rfl
    have hj' : Joint m after x := by
      refine hj.imp_right fun hends => hends.imp_left fun hne hafter => hne (hlast _ hafter)
    rw [tighten_of_cut? hcut, tighten_of_cut? (Text.cut?_append_right m.text_ne_nil hcut x),
      ih (hu.of_suffix ⟨before ++ m.text, hself.symm⟩) hj' h.1 h.2]
    simp only [List.append_assoc]

/-- Blanks in front of a text are trimmed by every pass. -/
theorem tighten_gap_append {gap : Text} (h : gap.AllBlank) (m : Mark) (t : Text) :
    tighten m.text (gap ++ t) = tighten m.text t := by
  have htrim : (fun piece : Text => (gap ++ piece).trim) = Text.trim := by
    funext piece
    unfold Text.trim
    rw [h.trimStart_append]
  rw [← tightenFrom_trim, tightenFrom_append m.text_ne_nil (clear_gap h m t), htrim,
    tightenFrom_trim]

theorem tighten_self_append (m : Mark) (v : Text) :
    tighten m.text (m.text ++ v) = m.text ++ tighten m.text v := by
  rw [← tightenFrom_trim, tightenFrom_self_append m.text_ne_nil]
  rfl

/-- Inside a piece a pass trims the blanks in front of the mark and of the end. -/
theorem tightenFrom_trimEnd_of_prefix {gap : Text} (h : gap.AllBlank) {m : Mark} {y : Text}
    (hy : y = [] ∨ m.text <+: y) :
    tightenFrom Text.trimEnd m.text (gap ++ y) = tighten m.text y := by
  rcases hy with rfl | ⟨rest, rfl⟩
  · rw [List.append_nil, tightenFrom_gap h, h.trimEnd_eq_nil]
    rfl
  · rw [← List.append_assoc, tightenFrom_mark h h.trimEnd_eq_nil, tighten_self_append]

/-- In front of any other text it leaves them alone. -/
theorem tightenFrom_trimEnd_of_not_prefix {gap : Text} (h : gap.AllBlank) {m : Mark} {y : Text}
    (hy : y.StartsSolid) (hne : y ≠ []) (hm : ¬ m.text <+: y) :
    tightenFrom Text.trimEnd m.text (gap ++ y) = gap ++ tighten m.text y := by
  have hkept : ∀ piece : Text, piece ≠ [] → piece <+: y →
      (gap ++ piece).trimEnd = gap ++ piece.trim := by
    intro piece hne hprefix
    exact (hy.of_isPrefix hprefix).trimEnd_append hne gap
  rw [tightenFrom_append m.text_ne_nil (clear_gap h m y)]
  cases hcut : Text.cut? m.text y with
  | none =>
    have hin := (Text.cut?_eq_none_iff m.text_ne_nil).1 hcut
    rw [tightenFrom_of_absent hin, tighten_of_absent hin]
    exact hkept y hne (List.prefix_refl y)
  | some parts =>
    obtain ⟨before, after⟩ := parts
    have hself : y = before ++ m.text ++ after := Text.eq_append_of_cut? hcut
    have hbefore : before ≠ [] := by
      rintro rfl
      exact hm ⟨after, hself.symm⟩
    rw [tightenFrom_of_cut? hcut, tighten_of_cut? hcut,
      hkept before hbefore ⟨m.text ++ after, by rw [hself, List.append_assoc]⟩]
    simp only [List.append_assoc]

/-- Between the two texts a piece of the pass goes on: neither ends it there. -/
structure Inside (m : Mark) (u v : Text) : Prop where
  before_ne : u ≠ []
  before : ¬ FoundAtEnd m u
  after_ne : v ≠ []
  after : ¬ m.text <+: v

instance (m : Mark) (u v : Text) : Decidable (Inside m u v) :=
  decidable_of_iff (u ≠ [] ∧ ¬ FoundAtEnd m u ∧ v ≠ [] ∧ ¬ m.text <+: v)
    ⟨fun ⟨hu, hbefore, hv, hafter⟩ => ⟨hu, hbefore, hv, hafter⟩,
      fun h => ⟨h.before_ne, h.before, h.after_ne, h.after⟩⟩

variable {m : Mark} {u gap v : Text}

/-- Where two parts meet inside a piece, a pass keeps the blanks between them. -/
theorem tighten_gap_of_inside (hu : u.EndsSolid) (hgap : gap.AllBlank) (hv : v.StartsSolid)
    (hj : Joint m u (gap ++ v)) (h : Inside m u v) :
    tighten m.text (u ++ (gap ++ v)) = tighten m.text u ++ (gap ++ tighten m.text v) := by
  rw [tighten_append_of_not_foundAtEnd hu hj h.before_ne h.before,
    tightenFrom_trimEnd_of_not_prefix hgap hv h.after_ne h.after]

/-- Where a piece ends between them, all the blanks go. -/
theorem tighten_gap_of_not_inside (hu : u.EndsSolid) (hgap : gap.AllBlank)
    (hj : Joint m u (gap ++ v)) (h : ¬ Inside m u v) :
    tighten m.text (u ++ (gap ++ v)) = tighten m.text u ++ tighten m.text v := by
  by_cases hbefore : u = [] ∨ FoundAtEnd m u
  · rw [tighten_append_of_foundAtEnd hbefore, tighten_gap_append hgap]
  · obtain ⟨hne, hfound⟩ := not_or.1 hbefore
    have hafter : v = [] ∨ m.text <+: v := by
      by_contra hafter
      obtain ⟨hv_ne, hprefix⟩ := not_or.1 hafter
      exact h ⟨hne, hfound, hv_ne, hprefix⟩
    rw [tighten_append_of_not_foundAtEnd hu hj hne hfound, tightenFrom_trimEnd_of_prefix hgap hafter]

/-- What ends a piece has the character of the mark, or is an end of the text. -/
theorem ends_of_not_inside (h : ¬ Inside m u v) :
    u = [] ∨ v = [] ∨ u.getLast? = some m.char ∨ v.head? = some m.char := by
  by_contra hends
  simp only [not_or] at hends
  obtain ⟨hu_ne, hv_ne, hlast, hhead⟩ := hends
  refine h ⟨hu_ne, fun hfound => hlast hfound.getLast?_eq, hv_ne, ?_⟩
  rintro ⟨rest, rfl⟩
  exact hhead (m.head?_append rest)

/-- Where solid ends meet there is nothing to leave out. -/
theorem tighten_join (hu : u.EndsSolid) (hv : v.StartsSolid) (hj : Joint m u v) :
    tighten m.text (u ++ v) = tighten m.text u ++ tighten m.text v := by
  by_cases h : Inside m u v
  · exact tighten_gap_of_inside hu Text.allBlank_nil hv hj h
  · exact tighten_gap_of_not_inside hu Text.allBlank_nil hj h

/-! ## Ends after a pass -/

theorem startsSolid_tighten (m : Mark) (t : Text) : (tighten m.text t).StartsSolid := by
  cases hcut : Text.cut? m.text t with
  | none =>
    rw [tighten_of_absent ((Text.cut?_eq_none_iff m.text_ne_nil).1 hcut)]
    exact Text.startsSolid_trim t
  | some parts =>
    obtain ⟨before, after⟩ := parts
    rw [tighten_of_cut? hcut, List.append_assoc]
    exact Text.startsSolid_append (Text.startsSolid_trim before) fun _ => m.startsSolid_append _

theorem endsSolid_tighten (m : Mark) (t : Text) : (tighten m.text t).EndsSolid := by
  induction t using Text.cut?_induction m.text_ne_nil with
  | last t hcut =>
    rw [tighten_of_absent ((Text.cut?_eq_none_iff m.text_ne_nil).1 hcut)]
    exact Text.endsSolid_trimEnd _
  | step t before after hcut ih =>
    rw [tighten_of_cut? hcut]
    refine Text.endsSolid_append ih fun _ => ?_
    exact Text.endsSolid_append m.endsSolid fun hnil => absurd hnil m.text_ne_nil

/-- The pass over the separators is the last one. -/
theorem withoutBlanks_eq_tighten (t : Text) :
    withoutBlanks t =
      tighten Mark.separator.text (passes [.opening, .closing, .or, .and] t) := by
  have hlast : Mark.inOrder = [.opening, .closing, .or, .and] ++ [.separator] := rfl
  rw [withoutBlanks_eq_passes, hlast, passes_append, passes_cons, passes_nil]

theorem startsSolid_withoutBlanks (t : Text) : (withoutBlanks t).StartsSolid := by
  rw [withoutBlanks_eq_tighten]
  exact startsSolid_tighten .separator _

theorem endsSolid_withoutBlanks (t : Text) : (withoutBlanks t).EndsSolid := by
  rw [withoutBlanks_eq_tighten]
  exact endsSolid_tighten .separator _

/-! ## Nothing to leave out -/

/-- No blank stands beside an occurrence of the mark. -/
def Tight (m : Mark) (t : Text) : Prop :=
  ∀ u v, t = u ++ (m.text ++ v) → u.EndsSolid ∧ v.StartsSolid

theorem Tight.of_suffix {t w : Text} (h : Tight m t) (hw : w <:+ t) : Tight m w := by
  obtain ⟨x, rfl⟩ := hw
  rintro u v rfl
  obtain ⟨hbefore, hafter⟩ := h (x ++ u) v (by rw [List.append_assoc])
  exact ⟨hbefore.of_suffix (List.suffix_append x u), hafter⟩

/-- Where no blank stands beside the mark or at the ends its pass changes nothing. -/
theorem tighten_of_tight {t : Text} (h : Tight m t) (hs : t.StartsSolid) (he : t.EndsSolid) :
    tighten m.text t = t := by
  induction t using Text.cut?_induction m.text_ne_nil with
  | last t hcut =>
    rw [tighten_of_absent ((Text.cut?_eq_none_iff m.text_ne_nil).1 hcut), Text.trim_eq_self hs he]
  | step t before after hcut ih =>
    have hself : t = before ++ m.text ++ after := Text.eq_append_of_cut? hcut
    have hsuffix : after <:+ t := ⟨_, hself.symm⟩
    rw [List.append_assoc] at hself
    obtain ⟨hbefore, hafter⟩ := h before after hself
    rw [tighten_of_cut? hcut, Text.trim_eq_self (hs.of_isPrefix ⟨_, hself.symm⟩) hbefore,
      ih (h.of_suffix hsuffix) hafter (he.of_suffix hsuffix), List.append_assoc, ← hself]

/-! ## One pass over marks -/

theorem tighten_gap_self {m : Mark} {u gap v : Text} (hu : u.EndsSolid) (hgap : gap.AllBlank)
    (hj : Joint m u (gap ++ (m.text ++ v))) :
    tighten m.text (u ++ (gap ++ (m.text ++ v))) =
      tighten m.text u ++ (m.text ++ tighten m.text v) := by
  have hout : ¬ Inside m u (m.text ++ v) := fun h => h.after (List.prefix_append _ _)
  rw [tighten_gap_of_not_inside hu hgap hj hout, tighten_self_append]

theorem mark_absent {m n : Mark} (h : m ≠ n) : ¬ m.text <:+: n.text := by
  intro hin
  obtain ⟨rest, he⟩ := m.text_eq_cons
  have hmem : m.char ∈ n.text := hin.subset (he ▸ List.mem_cons_self)
  exact h (Mark.char_injective (Mark.char_of_mem hmem))

theorem tighten_mark (m n : Mark) : tighten m.text n.text = n.text := by
  by_cases h : m = n
  · subst h
    have hself := tighten_gap_self (m := m) (v := []) Text.endsSolid_nil Text.allBlank_nil
      (.inr (.inl nofun))
    have hnil : tighten m.text [] = [] := rfl
    simpa only [hnil, List.nil_append, List.append_nil] using hself
  · rw [tighten_of_absent (mark_absent h), Text.trim_eq_self n.startsSolid n.endsSolid]

/-! ## All passes over parts -/

theorem passes_mark (ms : List Mark) (n : Mark) : passes ms n.text = n.text := by
  induction ms with
  | nil => rfl
  | cons m ms ih =>
    show passes ms (tighten m.text n.text) = n.text
    rw [tighten_mark, ih]

theorem passes_join {ms : List Mark} {u y : Text} (hu : u.EndsSolid) (hy : y.StartsSolid)
    (hj : ∀ m ∈ ms, Joint m u y) : passes ms (u ++ y) = passes ms u ++ passes ms y := by
  induction ms generalizing u y with
  | nil => rfl
  | cons m ms ih =>
    have htu := thinned_tighten m.text u
    have hty := thinned_tighten m.text y
    show passes ms (tighten m.text (u ++ y)) = _
    rw [tighten_join hu hy (hj m List.mem_cons_self)]
    refine ih (htu.endsSolid hu) (hty.startsSolid hy) fun n hn => ?_
    unfold Joint
    rw [htu.getLast?_eq hu, hty.head?_eq hy]
    exact hj n (List.mem_cons_of_mem _ hn)

/-- The inside of a pair of parentheses is treated like a text of its own. -/
theorem withoutBlanks_group {w : Text} (hs : w.StartsSolid) (he : w.EndsSolid) :
    withoutBlanks (.char '(' :: (w ++ [.char ')'])) =
      .char '(' :: (withoutBlanks w ++ [.char ')']) := by
  have hopen : ∀ m, Joint m Mark.opening.text (w ++ Mark.closing.text) := by
    intro m
    by_cases h : m = .opening
    · subst h
      exact .inl rfl
    · exact .inr (.inl fun hlast => h (Mark.char_injective (Option.some.inj hlast).symm))
  have hclose : ∀ m, Joint m w Mark.closing.text := by
    intro m
    by_cases h : m = .closing
    · subst h
      exact .inl rfl
    · exact .inr (.inr fun hhead => h (Mark.char_injective (Option.some.inj hhead).symm))
  have hstart : (w ++ Mark.closing.text).StartsSolid :=
    Text.startsSolid_append hs fun _ => Mark.closing.startsSolid
  have hself : ∀ t : Text,
      .char '(' :: (t ++ [.char ')']) = Mark.opening.text ++ (t ++ Mark.closing.text) :=
    fun t => rfl
  rw [hself, hself, withoutBlanks_eq_passes, withoutBlanks_eq_passes,
    passes_join Mark.opening.endsSolid hstart fun m _ => hopen m,
    passes_join he Mark.closing.startsSolid fun m _ => hclose m, passes_mark, passes_mark]

/-- The pass over another mark leaves blanks beside a mark, or leaves them out; where the text in
front ends with a character of the mark, it leaves them. -/
theorem tighten_around {m n : Mark} (hmn : m ≠ n) {u g h v : Text} (hu : u.EndsSolid)
    (hv : v.StartsSolid) (hg : g.AllBlank) (hh : h.AllBlank) :
    ∃ g' h', g'.AllBlank ∧ h'.AllBlank ∧ (u.getLast? = some n.char → g' = g) ∧
      tighten m.text (u ++ (g ++ (n.text ++ (h ++ v)))) =
        tighten m.text u ++ (g' ++ (n.text ++ (h' ++ tighten m.text v))) := by
  have hne : n.char ≠ m.char := fun h => hmn (Mark.char_injective h).symm
  have hbehind : ∃ h', h'.AllBlank ∧
      tighten m.text (n.text ++ (h ++ v)) = n.text ++ (h' ++ tighten m.text v) := by
    have hj : Joint m n.text (h ++ v) := by
      refine .inr (.inl fun hlast => hne ?_)
      rw [n.getLast?_text] at hlast
      exact Option.some.inj hlast
    by_cases hin : Inside m n.text v
    · exact ⟨h, hh, by rw [tighten_gap_of_inside n.endsSolid hh hv hj hin, tighten_mark]⟩
    · refine ⟨[], Text.allBlank_nil, ?_⟩
      rw [tighten_gap_of_not_inside n.endsSolid hh hj hin, tighten_mark]
      rfl
  obtain ⟨h', hh', hbehind⟩ := hbehind
  have hhead : (n.text ++ (h ++ v)).head? = some n.char := n.head?_append _
  have hj : Joint m u (g ++ (n.text ++ (h ++ v))) := by
    by_cases hnil : g = []
    · subst hnil
      refine .inr (.inr fun hfirst => hne ?_)
      rw [List.nil_append, hhead] at hfirst
      exact Option.some.inj hfirst
    · exact joint_gap hg hnil
  by_cases hin : Inside m u (n.text ++ (h ++ v))
  · refine ⟨g, h', hg, hh', fun _ => rfl, ?_⟩
    rw [tighten_gap_of_inside hu hg (n.startsSolid_append _) hj hin, hbehind]
  · have hgone := tighten_gap_of_not_inside hu hg hj hin
    refine ⟨[], h', Text.allBlank_nil, hh', fun hlast => ?_, by rw [hgone, hbehind]; rfl⟩
    rcases ends_of_not_inside hin with rfl | hnil | hend | hstart
    · cases hlast
    · rw [hnil] at hhead
      cases hhead
    · rw [hlast] at hend
      exact absurd (Option.some.inj hend) hne
    · rw [hhead] at hstart
      exact absurd (Option.some.inj hstart) hne

theorem passes_around_mark {ms : List Mark} {n : Mark} (hn : n ∉ ms) {u v : Text}
    (hu : u.EndsSolid) (hv : v.StartsSolid) :
    passes ms (u ++ (n.text ++ v)) = passes ms u ++ (n.text ++ passes ms v) := by
  have hne : ∀ m ∈ ms, n.char ≠ m.char := by
    intro m hm h
    rw [Mark.char_injective h] at hn
    exact hn hm
  rw [passes_join hu (n.startsSolid_append v) ?before, passes_join n.endsSolid hv ?behind,
    passes_mark]
  case before =>
    intro m hm
    refine .inr (.inr fun h => hne m hm ?_)
    rw [n.head?_append] at h
    exact Option.some.inj h
  case behind =>
    intro m hm
    refine .inr (.inl fun h => hne m hm ?_)
    rw [n.getLast?_text] at h
    exact Option.some.inj h

/-- Around a mark the passes leave out the blanks, and treat what stands on either side of it like
a text of its own. -/
theorem passes_around {ms : List Mark} (hms : ms.Nodup) {n : Mark} (hn : n ∈ ms)
    {u g h v : Text} (hu : u.EndsSolid) (hv : v.StartsSolid) (hg : g.AllBlank) (hh : h.AllBlank)
    (hj : u.getLast? = some n.char → g ≠ []) :
    passes ms (u ++ (g ++ (n.text ++ (h ++ v)))) = passes ms u ++ (n.text ++ passes ms v) := by
  induction ms generalizing u g h v with
  | nil => cases hn
  | cons m ms ih =>
    obtain ⟨hm, hms⟩ := List.nodup_cons.1 hms
    have htu := thinned_tighten m.text u
    have htv := thinned_tighten m.text v
    show passes ms (tighten m.text _) = passes ms (tighten m.text u) ++ _
    by_cases hmn : m = n
    · subst hmn
      have hjoint : Joint m u (g ++ (m.text ++ (h ++ v))) := by
        by_cases hlast : u.getLast? = some m.char
        · exact joint_gap hg (hj hlast)
        · exact .inr (.inl hlast)
      rw [tighten_gap_self hu hg hjoint, tighten_gap_append hh,
        passes_around_mark hm (htu.endsSolid hu) (htv.startsSolid hv)]
      rfl
    · obtain ⟨g', h', hg', hh', hsame, htight⟩ := tighten_around hmn hu hv hg hh
      have hn : n ∈ ms := (List.mem_cons.1 hn).resolve_left (Ne.symm hmn)
      rw [htight, ih hms hn (htu.endsSolid hu) (htv.startsSolid hv) hg' hh' ?_]
      · rfl
      · intro hlast
        rw [htu.getLast?_eq hu] at hlast
        rw [hsame hlast]
        exact hj hlast

/-- Blanks around a mark go, and the texts on its two sides are treated like texts of their own. -/
theorem withoutBlanks_around {n : Mark} {u g h v : Text} (hu : u.EndsSolid) (hv : v.StartsSolid)
    (hg : g.AllBlank) (hh : h.AllBlank) (hj : u.getLast? = some n.char → g ≠ []) :
    withoutBlanks (u ++ (g ++ (n.text ++ (h ++ v)))) =
      withoutBlanks u ++ (n.text ++ withoutBlanks v) := by
  simp only [withoutBlanks_eq_passes]
  exact passes_around Mark.nodup_inOrder n.mem_inOrder hu hv hg hh hj

end AttributeAccess.Expression
