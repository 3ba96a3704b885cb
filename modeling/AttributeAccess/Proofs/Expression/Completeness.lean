import AttributeAccess.Proofs.Expression.Gaps

/-!
# Blanks left beside marks

Each mark is looked for in the text as it was written, and leaving out blanks can put together a
mark that no pass looks for any more: the blanks between a mark and a single character of it go, so
that this character and one of the mark stand as a mark of their own (`Joins`), and on the other
side of the single character blanks may stay. So the passes leave blanks beside marks exactly where
a gap that stays has such a neighbour (`withoutBlanks_complete_iff`). Where they leave none a second
run changes nothing.
-/

namespace AttributeAccess.Expression

variable {m n : Mark} {t u gap v : Text}

theorem eq_char_of_thinned {w : Text} {c : CodePoint} (hc : isBlank c = false)
    (h : Text.Thinned w [c]) : w = [c] :=
  h.eq_of_forall fun _ hd => List.mem_singleton.1 hd ▸ hc

theorem withoutBlanks_char (m : Mark) : withoutBlanks [m.char] = [m.char] :=
  eq_char_of_thinned m.isBlank_char (thinned_withoutBlanks _)

theorem not_inner_of_mark (hm : m.text <+: v) : ¬ Inner u v :=
  fun h => (h m).after hm

theorem not_inner_of_foundAtEnd (hm : FoundAtEnd m u) : ¬ Inner u v :=
  fun h => (h m).before hm

/-! ## Gaps of the text that is left -/

/-- The blanks that are left are gaps of the text that stayed. -/
theorem exists_gap_of_withoutBlanks {x z : Text} (h : Gap (withoutBlanks t) x gap z) :
    ∃ u v, Gap t u gap v ∧ Inner u v ∧ withoutBlanks u = x ∧ withoutBlanks v = z := by
  have hthin := thinned_withoutBlanks t
  rw [h.eq] at hthin
  obtain ⟨u, g, v, hparts, hu, hg, hv, hvisible⟩ := hthin.exists_parts
  -- whatever is left of `u` is the text in front of the gap, so blanks follow it
  have hfront : ∀ {a b : Text}, withoutBlanks t = a ++ b → Text.Thinned a u →
      a = x ∧ b = gap ++ z := by
    intro a b hab ha
    have hself : a ++ b = x ++ (gap ++ z) := hab.symm.trans h.eq
    have hax : a = x := Text.eq_of_endsSolid_of_visible_eq hself (ha.endsSolid hu) h.before
      (by rw [ha.visible_eq, hvisible])
    subst hax
    exact ⟨rfl, List.append_cancel_left hself⟩
  have hne : g ≠ [] := by
    rintro rfl
    have hthin : Text.Thinned (withoutBlanks t) (u ++ v) := by
      rw [← List.nil_append v, ← hparts]
      exact thinned_withoutBlanks t
    obtain ⟨a, b, hab, ha, hb⟩ := hthin.append_inv
    obtain ⟨-, rfl⟩ := hfront hab ha
    exact h.not_startsSolid (hb.startsSolid hv)
  have hgap : Gap t u g v := ⟨hparts, hne, hg, hu, hv⟩
  have hvleft : (withoutBlanks v).StartsSolid := (thinned_withoutBlanks v).startsSolid hv
  have hinner : Inner u v := by
    by_contra hout
    obtain ⟨-, hrest⟩ :=
      hfront (hgap.withoutBlanks_of_not_inner hout) (thinned_withoutBlanks u)
    exact h.not_startsSolid (hrest ▸ hvleft)
  obtain ⟨hsame, hrest⟩ := hfront (hgap.withoutBlanks_of_inner hinner) (thinned_withoutBlanks u)
  obtain ⟨rfl, htail⟩ := Text.eq_of_gap_append hrest hg h.blank hvleft h.after
  exact ⟨u, v, hgap, hinner, hsame, htail⟩

/-! ## Marks that are put together -/

/-- Beside the gap between the two texts stands a single character of the mark, and on its other
side, behind blanks or none, a mark that is found. -/
def Joins (m : Mark) (u v : Text) : Prop :=
  (∃ gap rest : Text, gap.AllBlank ∧ v = m.char :: (gap ++ (m.text ++ rest))) ∨
    ∃ rest gap : Text, gap.AllBlank ∧ FoundAtEnd m rest ∧ u = rest ++ (gap ++ [m.char])

/-! ### Marks of one character -/

theorem text_prefix_of_single (hm : m.text = [m.char]) (t : Text) : m.text <+: m.char :: t := by
  rw [hm]
  exact List.cons_prefix_cons.2 ⟨rfl, List.nil_prefix⟩

theorem foundAtEnd_of_single (hm : m.text = [m.char]) (t : Text) :
    FoundAtEnd m (t ++ [m.char]) := by
  rw [FoundAtEnd, Text.row_concat, if_pos rfl, hm]
  exact ⟨Nat.succ_pos _, Nat.one_dvd _⟩

/-! ### Marks of two characters -/

section

variable (hm : m.text = [m.char, m.char])

include hm

/-- Every second character of a row completes a mark. -/
theorem foundAtEnd_concat_iff (hlast : t.getLast? = some m.char) :
    FoundAtEnd m (t ++ [m.char]) ↔ ¬ FoundAtEnd m t := by
  have hpos : 0 < t.row m.char := by
    by_contra hzero
    obtain ⟨x, hself, hx⟩ := Text.exists_row m.char t
    rw [Nat.eq_zero_of_not_pos hzero, List.replicate_zero, List.append_nil] at hself
    exact hx (hself ▸ hlast)
  rw [FoundAtEnd, FoundAtEnd, Text.row_concat, if_pos rfl, hm]
  simp only [List.length_cons, List.length_nil]
  omega

/-- Behind a single character a gap goes only in front of a mark, if that character follows. -/
theorem prefix_of_not_inner (hhead : v.head? = some m.char) (h : ¬ Inner [m.char] v) :
    m.text <+: v := by
  obtain ⟨n, hn⟩ := not_forall.1 h
  have hbefore : ¬ FoundAtEnd n [m.char] := by
    intro hfound
    have hchar : m.char = n.char := Option.some.inj hfound.getLast?_eq
    have hlen := hfound.suffix.length_le
    rw [← Mark.char_injective hchar, hm] at hlen
    exact absurd hlen (by simp)
  have hleft : n.text <+: v := by
    by_contra hleft
    refine hn ⟨List.cons_ne_nil _ _, hbefore, ?_, hleft⟩
    rintro rfl
    cases hhead
  obtain ⟨rest, rfl⟩ := hleft
  rw [n.head?_append] at hhead
  rw [Mark.char_injective (Option.some.inj hhead)]
  exact List.prefix_append _ _

/-- In front of a single character a gap goes only behind a mark, if that character precedes. -/
theorem foundAtEnd_of_not_inner (hlast : u.getLast? = some m.char) (h : ¬ Inner u [m.char]) :
    FoundAtEnd m u := by
  obtain ⟨n, hn⟩ := not_forall.1 h
  have hafter : ¬ n.text <+: [m.char] := by
    rintro ⟨rest, hrest⟩
    have hchar := congrArg List.head? hrest
    rw [n.head?_append] at hchar
    have hlen := congrArg List.length hrest
    rw [Mark.char_injective (Option.some.inj hchar), hm] at hlen
    simp at hlen
  have hfound : FoundAtEnd n u := by
    by_contra hfound
    refine hn ⟨?_, hfound, List.cons_ne_nil _ _, hafter⟩
    rintro rfl
    cases hlast
  rw [hfound.getLast?_eq] at hlast
  rwa [Mark.char_injective (Option.some.inj hlast)] at hfound

end

/-! ### What is left starts or ends with a mark -/

theorem exists_of_prefix_withoutBlanks (hv : v.StartsSolid) (h : m.text <+: withoutBlanks v)
    (hnot : ¬ m.text <+: v) :
    ∃ gap rest : Text, gap.AllBlank ∧ v = m.char :: (gap ++ (m.text ++ rest)) := by
  obtain ⟨w, rfl⟩ := exists_cons_of_thinned (thinned_withoutBlanks v) hv h
  rcases m.text_eq with hm | hm
  · exact absurd (text_prefix_of_single hm w) hnot
  · obtain ⟨gap, y, rfl, hgap, hy⟩ := Text.exists_append_startsSolid w
    have hysame : (withoutBlanks y).head? = y.head? := (thinned_withoutBlanks y).head?_eq hy
    rw [hm] at h hnot
    rw [double_prefix_cons] at hnot
    by_cases hne : gap = []
    · -- the second character stood right behind the first one
      subst hne
      obtain ⟨a, b, hab, ha, hb⟩ := (thinned_withoutBlanks ([m.char] ++ y)).append_inv
      change [m.char, m.char] <+: withoutBlanks ([m.char] ++ y) at h
      rw [hab, eq_char_of_thinned m.isBlank_char ha, List.singleton_append, double_prefix_cons,
        hb.head?_eq hy] at h
      exact absurd h hnot
    · have hg : Gap (m.char :: (gap ++ y)) [m.char] gap y :=
        ⟨rfl, hne, hgap, endsSolid_replicate m 1, hy⟩
      have hout : ¬ Inner [m.char] y := by
        intro hin
        rw [hg.withoutBlanks_of_inner hin, withoutBlanks_char, List.singleton_append,
          double_prefix_cons] at h
        exact head?_gap_ne hgap hne m _ h
      rw [hg.withoutBlanks_of_not_inner hout, withoutBlanks_char, List.singleton_append,
        double_prefix_cons, hysame] at h
      obtain ⟨rest, rfl⟩ := prefix_of_not_inner hm h hout
      exact ⟨gap, rest, hgap, rfl⟩

theorem prefix_withoutBlanks {gap rest : Text} (hgap : gap.AllBlank) :
    m.text <+: withoutBlanks (m.char :: (gap ++ (m.text ++ rest))) := by
  rcases m.text_eq with hm | hm
  · exact prefix_of_thinned (thinned_withoutBlanks _) (text_prefix_of_single hm _)
  · by_cases hne : gap = []
    · refine prefix_of_thinned (thinned_withoutBlanks _) ?_
      rw [hne, hm, double_prefix_cons]
      rfl
    · have hsolid : (m.text ++ rest).StartsSolid := m.startsSolid_append rest
      have hg : Gap (m.char :: (gap ++ (m.text ++ rest))) [m.char] gap (m.text ++ rest) :=
        ⟨rfl, hne, hgap, endsSolid_replicate m 1, hsolid⟩
      rw [hg.withoutBlanks_of_not_inner (not_inner_of_mark (List.prefix_append _ _)),
        withoutBlanks_char, List.singleton_append]
      conv_lhs => rw [hm]
      rw [double_prefix_cons, (thinned_withoutBlanks _).head?_eq hsolid, m.head?_append]

theorem exists_of_suffix_withoutBlanks (hu : u.EndsSolid) (h : m.text <:+ withoutBlanks u)
    (hnot : ¬ FoundAtEnd m u) :
    ∃ rest gap : Text, gap.AllBlank ∧ FoundAtEnd m rest ∧ u = rest ++ (gap ++ [m.char]) := by
  obtain ⟨w, rfl⟩ := exists_concat_of_thinned (thinned_withoutBlanks u) hu h
  rcases m.text_eq with hm | hm
  · exact absurd (foundAtEnd_of_single hm w) hnot
  · obtain ⟨x, gap, rfl, hx, hgap⟩ := Text.exists_endsSolid_append w
    have hxsame : (withoutBlanks x).getLast? = x.getLast? :=
      (thinned_withoutBlanks x).getLast?_eq hx
    rw [List.append_assoc] at h ⊢
    rw [hm] at h
    by_cases hne : gap = []
    · -- the first character stood right in front of the second one, in a row of odd length
      subst hne
      obtain ⟨a, b, hab, ha, hb⟩ := (thinned_withoutBlanks (x ++ [m.char])).append_inv
      change [m.char, m.char] <:+ withoutBlanks (x ++ [m.char]) at h
      rw [hab, eq_char_of_thinned m.isBlank_char hb, double_suffix_concat,
        ha.getLast?_eq hx] at h
      rw [List.append_nil, foundAtEnd_concat_iff hm h, not_not] at hnot
      exact ⟨x, [], Text.allBlank_nil, hnot, rfl⟩
    · have hg : Gap (x ++ (gap ++ [m.char])) x gap [m.char] :=
        ⟨rfl, hne, hgap, hx, startsSolid_replicate m 1⟩
      have hout : ¬ Inner x [m.char] := by
        intro hin
        rw [hg.withoutBlanks_of_inner hin, withoutBlanks_char, ← List.append_assoc,
          double_suffix_concat] at h
        exact getLast?_gap_ne hgap hne m _ h
      rw [hg.withoutBlanks_of_not_inner hout, withoutBlanks_char, double_suffix_concat,
        hxsame] at h
      exact ⟨x, gap, hgap, foundAtEnd_of_not_inner hm h hout, rfl⟩

theorem suffix_withoutBlanks {rest gap : Text} (hgap : gap.AllBlank) (h : FoundAtEnd m rest) :
    m.text <:+ withoutBlanks (rest ++ (gap ++ [m.char])) := by
  rcases m.text_eq with hm | hm
  · refine suffix_of_thinned (thinned_withoutBlanks _) ?_
    rw [hm, ← List.append_assoc]
    exact List.suffix_append _ _
  · by_cases hne : gap = []
    · refine suffix_of_thinned (thinned_withoutBlanks _) ?_
      rw [hne, hm, List.nil_append, double_suffix_concat]
      exact h.getLast?_eq
    · have hg : Gap (rest ++ (gap ++ [m.char])) rest gap [m.char] :=
        ⟨rfl, hne, hgap, h.endsSolid, startsSolid_replicate m 1⟩
      rw [hg.withoutBlanks_of_not_inner (not_inner_of_foundAtEnd h), withoutBlanks_char, hm,
        double_suffix_concat, (thinned_withoutBlanks rest).getLast?_eq h.endsSolid, h.getLast?_eq]

/-- Beside a gap that stays there is a mark exactly if one is put together there. -/
theorem joins_iff (hu : u.EndsSolid) (hv : v.StartsSolid) (h : Inner u v) :
    Joins m u v ↔ m.text <+: withoutBlanks v ∨ m.text <:+ withoutBlanks u := by
  constructor
  · rintro (⟨gap, rest, hgap, rfl⟩ | ⟨rest, gap, hgap, hfound, rfl⟩)
    · exact .inl (prefix_withoutBlanks hgap)
    · exact .inr (suffix_withoutBlanks hgap hfound)
  · rintro (hstart | hend)
    · exact .inl (exists_of_prefix_withoutBlanks hv hstart (h m).after)
    · exact .inr (exists_of_suffix_withoutBlanks hu hend (h m).before)

/-! ## Marks without blanks beside them -/

theorem tight_iff :
    Tight m t ↔ ∀ u gap v, Gap t u gap v → ¬ m.text <+: v ∧ ¬ m.text <:+ u := by
  constructor
  · refine fun htight u gap v hg => ⟨?_, ?_⟩
    · rintro ⟨rest, rfl⟩
      exact hg.not_endsSolid (htight (u ++ gap) rest (by rw [hg.eq, List.append_assoc])).1
    · rintro ⟨rest, rfl⟩
      exact hg.not_startsSolid (htight rest (gap ++ v) (by rw [hg.eq, List.append_assoc])).2
  · refine fun h u v hself => ⟨?_, ?_⟩
    · obtain ⟨w, gap, rfl, hw, hgap⟩ := Text.exists_endsSolid_append u
      by_cases hne : gap = []
      · rwa [hne, List.append_nil]
      · rw [List.append_assoc] at hself
        have hg : Gap t w gap (m.text ++ v) := ⟨hself, hne, hgap, hw, m.startsSolid_append v⟩
        exact absurd (List.prefix_append _ _) (h w gap _ hg).1
    · obtain ⟨gap, w, rfl, hgap, hw⟩ := Text.exists_append_startsSolid v
      by_cases hne : gap = []
      · rwa [hne, List.nil_append]
      · rw [← List.append_assoc] at hself
        have hu : (u ++ m.text).EndsSolid :=
          Text.endsSolid_append m.endsSolid fun hnil => absurd hnil m.text_ne_nil
        have hg : Gap t (u ++ m.text) gap w := ⟨hself, hne, hgap, hu, hw⟩
        exact absurd (List.suffix_append _ _) (h _ gap w hg).2

/-- No blank is left beside an occurrence of the mark, unless it is put together beside a gap that
stays. -/
theorem tight_withoutBlanks_iff :
    Tight m (withoutBlanks t) ↔ ∀ u gap v, Gap t u gap v → Inner u v → ¬ Joins m u v := by
  rw [tight_iff]
  constructor
  · intro h u gap v hg hin
    have hleft : Gap (withoutBlanks t) (withoutBlanks u) gap (withoutBlanks v) :=
      ⟨hg.withoutBlanks_of_inner hin, hg.ne_nil, hg.blank,
        (thinned_withoutBlanks u).endsSolid hg.before,
        (thinned_withoutBlanks v).startsSolid hg.after⟩
    rw [joins_iff hg.before hg.after hin, not_or]
    exact h _ gap _ hleft
  · intro h x gap z hleft
    obtain ⟨u, v, hg, hin, rfl, rfl⟩ := exists_gap_of_withoutBlanks hleft
    have hnot := h u gap v hg hin
    rwa [joins_iff hg.before hg.after hin, not_or] at hnot

/-- A mark of one character is found wherever it stands. -/
theorem not_joins_of_single (hm : m.text = [m.char]) (h : Inner u v) : ¬ Joins m u v := by
  rintro (⟨gap, rest, -, rfl⟩ | ⟨rest, gap, -, -, rfl⟩)
  · exact (h m).after (text_prefix_of_single hm _)
  · rw [← List.append_assoc] at h
    exact (h m).before (foundAtEnd_of_single hm _)

/-! ## A second run -/

theorem joinWith_trim_eq_iff (mark : Text) {ts : List Text} :
    Text.joinWith mark (ts.map Text.trim) = Text.joinWith mark ts ↔ ∀ t ∈ ts, t.trim = t := by
  induction ts with
  | nil => simp
  | cons t ts ih =>
    cases ts with
    | nil => simp [Text.joinWith]
    | cons u us =>
      rw [List.forall_mem_cons, ← ih, List.map_cons, Text.joinWith_cons (by simp),
        Text.joinWith_cons (by simp)]
      constructor
      · intro h
        have ht := Text.length_trim_le t
        have hts := length_joinWith_trim_le mark (u :: us)
        have hlen := congrArg List.length h
        simp only [List.length_append] at hlen
        have hsame : t.trim = t := (Text.Thinned.trim t).eq_of_length_le (by omega)
        rw [hsame] at h
        exact ⟨hsame, List.append_cancel_left h⟩
      · rintro ⟨ht, hts⟩
        rw [ht, hts]

/-- A pass changes nothing exactly if no blank stands at the end of one of its pieces. -/
theorem tighten_eq_self_iff :
    tighten m.text t = t ↔ ∀ piece ∈ Text.splitOn m.text t, piece.trim = piece := by
  rw [← joinWith_trim_eq_iff m.text, Text.joinWith_splitOn]
  rfl

theorem passes_eq_self_iff {ms : List Mark} :
    passes ms t = t ↔ ∀ m ∈ ms, tighten m.text t = t := by
  induction ms with
  | nil => simp [passes_nil]
  | cons m ms ih =>
    rw [List.forall_mem_cons, ← ih, passes_cons]
    constructor
    · intro h
      have hlen := (thinned_passes ms (tighten m.text t)).length_le
      rw [h] at hlen
      have hsame := (thinned_tighten m.text t).eq_of_length_le hlen
      rw [hsame] at h
      exact ⟨hsame, h⟩
    · rintro ⟨hm, hms⟩
      rw [hm, hms]

theorem withoutBlanks_eq_self_iff : withoutBlanks t = t ↔ ∀ m : Mark, tighten m.text t = t := by
  rw [withoutBlanks_eq_passes, passes_eq_self_iff]
  exact ⟨fun h m => h m m.mem_inOrder, fun h m _ => h m⟩

/-- No blank stands at the ends of the text or beside a mark in it. -/
structure Complete (t : Text) : Prop where
  starts : t.StartsSolid
  ends : t.EndsSolid
  tight : ∀ m, Tight m t

theorem Complete.withoutBlanks_eq (h : Complete t) : withoutBlanks t = t :=
  withoutBlanks_eq_self_iff.2 fun m => tighten_of_tight (h.tight m) h.starts h.ends

/-- **What the passes leave.** No blank is left at the ends of the text or beside a parenthesis. No
blank is left beside any mark, and a second run changes nothing, exactly if no gap that stays has a
neighbour that is put together to a mark. A second run alone changes nothing exactly if no blank is
left beside a mark that it finds. -/
theorem withoutBlanks_complete_iff (t : Text) :
    (withoutBlanks t).StartsSolid ∧ (withoutBlanks t).EndsSolid ∧
      Tight .opening (withoutBlanks t) ∧ Tight .closing (withoutBlanks t) ∧
      (Complete (withoutBlanks t) ∧ withoutBlanks (withoutBlanks t) = withoutBlanks t ↔
        ∀ u gap v, Gap t u gap v → Inner u v → ∀ m, ¬ Joins m u v) ∧
      (withoutBlanks (withoutBlanks t) = withoutBlanks t ↔
        ∀ m : Mark, ∀ piece ∈ Text.splitOn m.text (withoutBlanks t), piece.trim = piece) := by
  have hsingle : ∀ {m : Mark}, m.text = [m.char] → Tight m (withoutBlanks t) := fun hm =>
    tight_withoutBlanks_iff.2 fun _ _ _ _ hin => not_joins_of_single hm hin
  refine ⟨startsSolid_withoutBlanks t, endsSolid_withoutBlanks t, hsingle rfl, hsingle rfl, ?_, ?_⟩
  · constructor
    · rintro ⟨hcomplete, -⟩ u gap v hg hin m
      exact tight_withoutBlanks_iff.1 (hcomplete.tight m) u gap v hg hin
    · intro h
      have hcomplete : Complete (withoutBlanks t) :=
        ⟨startsSolid_withoutBlanks t, endsSolid_withoutBlanks t, fun m =>
          tight_withoutBlanks_iff.2 fun u gap v hg hin => h u gap v hg hin m⟩
      exact ⟨hcomplete, hcomplete.withoutBlanks_eq⟩
  · rw [withoutBlanks_eq_self_iff]
    exact forall_congr' fun m => tighten_eq_self_iff

/-- The blank between the colons goes and the one in front of them stays. -/
theorem withoutBlanks_incomplete :
    let t := "A : ::b".toText
    withoutBlanks t = "A :::b".toText ∧ ¬ Complete (withoutBlanks t) ∧
      withoutBlanks (withoutBlanks t) ≠ withoutBlanks t := by
  intro t
  have hleft : withoutBlanks t = "A :::b".toText := by decide
  refine ⟨hleft, fun h => ?_, by decide⟩
  have hblank := (h.tight .separator "A ".toText ":b".toText (by rw [hleft]; decide)).1
  exact absurd hblank (by decide)

end AttributeAccess.Expression
