import AttributeAccess.Proofs.Expression.Passes

/-!
# Which blanks of an expression stay

A gap is a run of blanks with nothing but solid characters at its two ends. All of it goes or all of
it stays, and each pass decides by its own mark: the gap stays if a piece between two marks goes on
on both of its sides (`Inside`). No pass changes that for another one (`inside_tighten_iff`), since
it puts no two characters of another mark together. So the fate of a gap can be read from the text
as it was written (`Gap.withoutBlanks_of_inner`, `Gap.withoutBlanks_of_not_inner`).
-/

namespace AttributeAccess.Expression

variable {m n : Mark} {u gap v : Text}

/-! ## What a pass leaves of other marks -/

theorem getLast?_gap_ne (hgap : gap.AllBlank) (hne : gap ≠ []) (m : Mark) (u : Text) :
    (u ++ gap).getLast? ≠ some m.char := by
  obtain ⟨g, c, rfl⟩ := (List.eq_nil_or_concat' gap).resolve_left hne
  rw [← List.append_assoc, List.getLast?_concat]
  intro hlast
  cases hlast
  exact char_not_mem_gap hgap m (by simp)

theorem startsSolid_replicate (m : Mark) (k : Nat) :
    Text.StartsSolid (List.replicate k m.char) := by
  intro c hc
  rw [List.eq_of_mem_replicate (List.mem_of_head? hc)]
  exact m.isBlank_char

theorem endsSolid_replicate (m : Mark) (k : Nat) :
    Text.EndsSolid (List.replicate k m.char) := by
  intro c hc
  rw [List.eq_of_mem_replicate (List.mem_of_getLast? hc)]
  exact m.isBlank_char

theorem tighten_replicate (h : n ≠ m) (k : Nat) :
    tighten n.text (List.replicate k m.char) = List.replicate k m.char := by
  have habsent : ¬ n.text <:+: List.replicate k m.char := by
    intro hin
    obtain ⟨rest, he⟩ := n.text_eq_cons
    have hmem : n.char ∈ List.replicate k m.char := hin.subset (he ▸ List.mem_cons_self)
    exact h (Mark.char_injective (List.eq_of_mem_replicate hmem))
  rw [tighten_of_absent habsent,
    Text.trim_eq_self (startsSolid_replicate m k) (endsSolid_replicate m k)]

/-- The row of a character at the end of a text does not change in the pass over another mark. -/
theorem row_tighten (h : n ≠ m) (hu : u.EndsSolid) :
    (tighten n.text u).row m.char = u.row m.char := by
  have hne : n.char ≠ m.char := Mark.char_ne h
  have hthin := thinned_tighten n.text u
  obtain ⟨x, hself, hx⟩ := Text.exists_row m.char u
  by_cases hzero : u.row m.char = 0
  · rw [hzero, Text.row_eq_zero]
    rw [hthin.getLast?_eq hu, hself, hzero, List.replicate_zero, List.append_nil]
    exact hx
  · generalize u.row m.char = k at hself hzero
    obtain ⟨w, gap, rfl, hw, hgap⟩ := Text.exists_endsSolid_append x
    have hrow : (List.replicate k m.char).head? = some m.char := by
      rw [List.head?_replicate, if_neg hzero]
    have hj : Joint n w (gap ++ List.replicate k m.char) := by
      by_cases hnil : gap = []
      · subst hnil
        refine .inr (.inr ?_)
        rw [List.nil_append, hrow]
        exact fun hc => hne (Option.some.inj hc).symm
      · exact joint_gap hgap hnil
    have hlast : (tighten n.text w).getLast? = w.getLast? :=
      (thinned_tighten n.text w).getLast?_eq hw
    rw [hself, List.append_assoc]
    by_cases hin : Inside n w (List.replicate k m.char)
    · rw [tighten_gap_of_inside hw hgap (startsSolid_replicate m k) hj hin, tighten_replicate h,
        ← List.append_assoc, Text.row_append_replicate]
      rw [List.getLast?_append, hlast, ← List.getLast?_append]
      exact hx
    · rw [tighten_gap_of_not_inside hw hgap hj hin, tighten_replicate h,
        Text.row_append_replicate]
      rw [hlast]
      rcases ends_of_not_inside hin with rfl | hnil | hend | hstart
      · exact nofun
      · rw [hnil] at hrow
        cases hrow
      · rw [hend]
        exact fun hc => hne (Option.some.inj hc)
      · rw [hrow] at hstart
        exact absurd (Option.some.inj hstart).symm hne

theorem foundAtEnd_tighten_iff (h : n ≠ m) (hu : u.EndsSolid) :
    FoundAtEnd m (tighten n.text u) ↔ FoundAtEnd m u := by
  unfold FoundAtEnd
  rw [row_tighten h hu]

/-- Leaving out blanks does not take a mark apart. -/
theorem prefix_of_thinned {t : Text} (h : Text.Thinned u t) (hm : m.text <+: t) :
    m.text <+: u := by
  obtain ⟨rest, rfl⟩ := hm
  obtain ⟨w, more, rfl, hw, -⟩ := h.append_inv
  rw [hw.eq_of_forall m.isBlank_of_mem]
  exact List.prefix_append _ _

theorem suffix_of_thinned {t : Text} (h : Text.Thinned u t) (hm : m.text <:+ t) :
    m.text <:+ u := by
  obtain ⟨rest, rfl⟩ := hm
  obtain ⟨more, w, rfl, -, hw⟩ := h.append_inv
  rw [hw.eq_of_forall m.isBlank_of_mem]
  exact List.suffix_append _ _

/-- What starts with a mark once blanks are left out started with its first character. -/
theorem exists_cons_of_thinned {w : Text} (h : Text.Thinned w v) (hv : v.StartsSolid)
    (hm : m.text <+: w) : ∃ rest, v = m.char :: rest := by
  obtain ⟨rest, rfl⟩ := hm
  have hhead : v.head? = some m.char := by rw [← h.head?_eq hv, m.head?_append]
  exact List.head?_eq_some_iff.1 hhead

/-- What ends with one ended with its last character. -/
theorem exists_concat_of_thinned {w : Text} (h : Text.Thinned w u) (hu : u.EndsSolid)
    (hm : m.text <:+ w) : ∃ rest, u = rest ++ [m.char] := by
  obtain ⟨rest, rfl⟩ := hm
  have hlast : u.getLast? = some m.char := by
    rw [← h.getLast?_eq hu, List.getLast?_append, m.getLast?_text]
    rfl
  exact List.getLast?_eq_some_iff.1 hlast

theorem double_prefix_cons {c : CodePoint} {t : Text} : [c, c] <+: c :: t ↔ t.head? = some c := by
  cases t with
  | nil => simp
  | cons d t => simp [eq_comm]

theorem double_suffix_concat {c : CodePoint} {t : Text} :
    [c, c] <:+ t ++ [c] ↔ t.getLast? = some c := by
  rw [← List.reverse_prefix, List.reverse_concat, ← List.head?_reverse]
  exact double_prefix_cons

theorem prefix_tighten_iff (h : n ≠ m) (hv : v.StartsSolid) :
    m.text <+: tighten n.text v ↔ m.text <+: v := by
  refine ⟨fun hleft => ?_, prefix_of_thinned (thinned_tighten n.text v)⟩
  have hne : n.char ≠ m.char := Mark.char_ne h
  obtain ⟨w, rfl⟩ := exists_cons_of_thinned (thinned_tighten n.text v) hv hleft
  rcases m.text_eq with he | he
  · rw [he]
    exact List.cons_prefix_cons.2 ⟨rfl, List.nil_prefix⟩
  · -- a second character of the mark right behind the first one after the pass was there before it
    obtain ⟨gap, y, rfl, hgap, hy⟩ := Text.exists_append_startsSolid w
    have hfirst : tighten n.text [m.char] = [m.char] := tighten_replicate h 1
    have hj : Joint n [m.char] (gap ++ y) :=
      .inr (.inl fun hc => hne (Option.some.inj hc).symm)
    have hysame : (tighten n.text y).head? = y.head? := (thinned_tighten n.text y).head?_eq hy
    have hsolid : Text.EndsSolid [m.char] := endsSolid_replicate m 1
    rw [he] at hleft ⊢
    rw [double_prefix_cons]
    change [m.char, m.char] <+: tighten n.text ([m.char] ++ (gap ++ y)) at hleft
    by_cases hin : Inside n [m.char] y
    · rw [tighten_gap_of_inside hsolid hgap hy hj hin, hfirst, List.singleton_append,
        double_prefix_cons, List.head?_append, hysame, ← List.head?_append] at hleft
      exact hleft
    · rw [tighten_gap_of_not_inside hsolid hgap hj hin, hfirst, List.singleton_append,
        double_prefix_cons, hysame] at hleft
      rcases ends_of_not_inside hin with hnil | rfl | hend | hstart
      · cases hnil
      · cases hleft
      · exact absurd (Option.some.inj hend).symm hne
      · rw [hleft] at hstart
        exact absurd (Option.some.inj hstart).symm hne

theorem tighten_eq_nil_iff_of_endsSolid (hu : u.EndsSolid) : tighten n.text u = [] ↔ u = [] := by
  rw [← List.getLast?_eq_none_iff, (thinned_tighten n.text u).getLast?_eq hu,
    List.getLast?_eq_none_iff]

theorem tighten_eq_nil_iff_of_startsSolid (hv : v.StartsSolid) :
    tighten n.text v = [] ↔ v = [] := by
  rw [← List.head?_eq_none_iff, (thinned_tighten n.text v).head?_eq hv, List.head?_eq_none_iff]

/-- Where a piece of one pass goes on is not changed by another pass. -/
theorem inside_tighten_iff (h : n ≠ m) (hu : u.EndsSolid) (hv : v.StartsSolid) :
    Inside m (tighten n.text u) (tighten n.text v) ↔ Inside m u v := by
  constructor
  · rintro ⟨hu_ne, hbefore, hv_ne, hafter⟩
    exact ⟨mt (tighten_eq_nil_iff_of_endsSolid hu).2 hu_ne,
      mt (foundAtEnd_tighten_iff h hu).2 hbefore,
      mt (tighten_eq_nil_iff_of_startsSolid hv).2 hv_ne, mt (prefix_tighten_iff h hv).2 hafter⟩
  · rintro ⟨hu_ne, hbefore, hv_ne, hafter⟩
    exact ⟨mt (tighten_eq_nil_iff_of_endsSolid hu).1 hu_ne,
      mt (foundAtEnd_tighten_iff h hu).1 hbefore,
      mt (tighten_eq_nil_iff_of_startsSolid hv).1 hv_ne, mt (prefix_tighten_iff h hv).1 hafter⟩

/-! ## The passes over a gap -/

theorem passes_gap_of_inside {ms : List Mark} (hms : ms.Nodup) (hu : u.EndsSolid)
    (hgap : gap.AllBlank) (hne : gap ≠ []) (hv : v.StartsSolid) (h : ∀ m ∈ ms, Inside m u v) :
    passes ms (u ++ (gap ++ v)) = passes ms u ++ (gap ++ passes ms v) := by
  induction ms generalizing u v with
  | nil => rfl
  | cons m ms ih =>
    obtain ⟨hm, hms⟩ := List.nodup_cons.1 hms
    obtain ⟨hin, hrest⟩ := List.forall_mem_cons.1 h
    rw [passes_cons, tighten_gap_of_inside hu hgap hv (joint_gap hgap hne) hin]
    refine ih hms ((thinned_tighten m.text u).endsSolid hu)
      ((thinned_tighten m.text v).startsSolid hv) fun n hn => ?_
    have hmn : m ≠ n := fun he => hm (he ▸ hn)
    exact (inside_tighten_iff hmn hu hv).2 (hrest n hn)

theorem passes_gap_of_not_inside {ms : List Mark} (hms : ms.Nodup) (hu : u.EndsSolid)
    (hgap : gap.AllBlank) (hne : gap ≠ []) (hv : v.StartsSolid) (h : ∃ m ∈ ms, ¬ Inside m u v) :
    passes ms (u ++ (gap ++ v)) = passes ms u ++ passes ms v := by
  induction ms generalizing u v with
  | nil =>
    obtain ⟨m, hm, -⟩ := h
    cases hm
  | cons m ms ih =>
    obtain ⟨hm, hms⟩ := List.nodup_cons.1 hms
    have htu := thinned_tighten m.text u
    have htv := thinned_tighten m.text v
    have hother : ∀ n ∈ ms, m ≠ n := fun n hn he => hm (he ▸ hn)
    by_cases hin : Inside m u v
    · rw [passes_cons, tighten_gap_of_inside hu hgap hv (joint_gap hgap hne) hin]
      refine ih hms (htu.endsSolid hu) (htv.startsSolid hv) ?_
      obtain ⟨n, hn, hout⟩ := h
      have hn : n ∈ ms := (List.mem_cons.1 hn).resolve_left fun he => hout (he ▸ hin)
      exact ⟨n, hn, mt (inside_tighten_iff (hother n hn) hu hv).1 hout⟩
    · rw [passes_cons, tighten_gap_of_not_inside hu hgap (joint_gap hgap hne) hin]
      refine passes_join (htu.endsSolid hu) (htv.startsSolid hv) fun n hn => ?_
      have hchar : m.char ≠ n.char := Mark.char_ne (hother n hn)
      unfold Joint
      rw [htu.getLast?_eq hu, htv.head?_eq hv]
      rcases ends_of_not_inside hin with rfl | rfl | hend | hstart
      · exact .inr (.inl nofun)
      · exact .inr (.inr nofun)
      · exact .inr (.inl fun hc => hchar (Option.some.inj (hend.symm.trans hc)))
      · exact .inr (.inr fun hc => hchar (Option.some.inj (hstart.symm.trans hc)))

/-! ## Gaps -/

/-- A run of blanks in a text that cannot be made longer. -/
structure Gap (t u gap v : Text) : Prop where
  eq : t = u ++ (gap ++ v)
  ne_nil : gap ≠ []
  blank : gap.AllBlank
  before : u.EndsSolid
  after : v.StartsSolid

/-- Neither an end of the text nor a mark stands at the place between the two texts. -/
def Inner (u v : Text) : Prop := ∀ m, Inside m u v

instance (u v : Text) : Decidable (Inner u v) :=
  decidable_of_iff (∀ m ∈ Mark.inOrder, Inside m u v)
    ⟨fun h m => h m m.mem_inOrder, fun h m _ => h m⟩

namespace Gap

variable {t : Text}

theorem not_startsSolid (hg : Gap t u gap v) : ¬ (gap ++ v).StartsSolid := by
  obtain ⟨c, g, rfl⟩ := List.exists_cons_of_ne_nil hg.ne_nil
  intro hsolid
  have hc := hsolid c rfl
  rw [hg.blank c List.mem_cons_self] at hc
  cases hc

theorem not_endsSolid (hg : Gap t u gap v) : ¬ (u ++ gap).EndsSolid := by
  obtain ⟨g, c, rfl⟩ := (List.eq_nil_or_concat' gap).resolve_left hg.ne_nil
  intro hsolid
  have hc := hsolid c (by rw [← List.append_assoc, List.getLast?_concat]; rfl)
  rw [hg.blank c (by simp)] at hc
  cases hc

theorem withoutBlanks_of_inner (hg : Gap t u gap v) (h : Inner u v) :
    withoutBlanks t = withoutBlanks u ++ (gap ++ withoutBlanks v) := by
  simp only [hg.eq, withoutBlanks_eq_passes]
  exact passes_gap_of_inside Mark.nodup_inOrder hg.before hg.blank hg.ne_nil hg.after
    fun m _ => h m

theorem withoutBlanks_of_not_inner (hg : Gap t u gap v) (h : ¬ Inner u v) :
    withoutBlanks t = withoutBlanks u ++ withoutBlanks v := by
  obtain ⟨m, hm⟩ := not_forall.1 h
  simp only [hg.eq, withoutBlanks_eq_passes]
  exact passes_gap_of_not_inside Mark.nodup_inOrder hg.before hg.blank hg.ne_nil hg.after
    ⟨m, m.mem_inOrder, hm⟩

end Gap

theorem inner_of_neighbours {a b : CodePoint} (ha : u.getLast? = some a) (hb : v.head? = some b)
    (hane : ∀ m : Mark, a ≠ m.char) (hbne : ∀ m : Mark, b ≠ m.char) : Inner u v := by
  intro m
  by_contra hout
  rcases ends_of_not_inside hout with rfl | rfl | hend | hstart
  · cases ha
  · cases hb
  · exact hane m (Option.some.inj (ha.symm.trans hend))
  · exact hbne m (Option.some.inj (hb.symm.trans hstart))

/-- **Only insignificant blanks go.** What is left is the text with some of its blanks left out, and
a run of blanks whose two neighbours are there and belong to no mark is left as it is, between what
is left of the text in front of it and of the text behind it. -/
theorem withoutBlanks_keeps_inner (t : Text) :
    Text.Thinned (withoutBlanks t) t ∧
      ∀ u gap v, Gap t u gap v →
        (∃ a, u.getLast? = some a ∧ a ∉ [.char '(', .char ')', .char '|', .char '&', .char ':']) →
        (∃ b, v.head? = some b ∧ b ∉ [.char '(', .char ')', .char '|', .char '&', .char ':']) →
        withoutBlanks t = withoutBlanks u ++ (gap ++ withoutBlanks v) ∧
          Text.Thinned (withoutBlanks u) u ∧ Text.Thinned (withoutBlanks v) v := by
  have hchar : ∀ {c : CodePoint}, c ∉ [.char '(', .char ')', .char '|', .char '&', .char ':'] →
      ∀ m : Mark, c ≠ m.char := by
    rintro c hc m rfl
    exact hc (by cases m <;> decide)
  refine ⟨thinned_withoutBlanks t, fun u gap v hg => ?_⟩
  rintro ⟨a, ha, hane⟩ ⟨b, hb, hbne⟩
  have hinner : Inner u v := inner_of_neighbours ha hb (hchar hane) (hchar hbne)
  exact ⟨hg.withoutBlanks_of_inner hinner, thinned_withoutBlanks u, thinned_withoutBlanks v⟩

/-- The blanks inside the name stay, and so do those around a single character of an operator. -/
theorem withoutBlanks_keeps_inner_name :
    let u : Text := " ( Top".toText
    let gap : Text := [.char '\u2003', .char ' ']
    let v : Text := "Secret | x :: y ) ".toText
    Gap (u ++ (gap ++ v)) u gap v ∧
      withoutBlanks (u ++ (gap ++ v)) = withoutBlanks u ++ (gap ++ withoutBlanks v) ∧
      withoutBlanks u = "(Top".toText ∧ withoutBlanks v = "Secret | x::y)".toText := by
  intro u gap v
  have hg : Gap (u ++ (gap ++ v)) u gap v :=
    ⟨rfl, by decide, by decide, by decide, by decide⟩
  have hkept := (withoutBlanks_keeps_inner (u ++ (gap ++ v))).2 u gap v hg
    ⟨.char 'p', by decide, by decide⟩ ⟨.char 'S', by decide, by decide⟩
  exact ⟨hg, hkept.1, by decide, by decide⟩

end AttributeAccess.Expression
