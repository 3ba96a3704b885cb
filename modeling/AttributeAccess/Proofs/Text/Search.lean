import AttributeAccess.Text.Basic
import Mathlib.Data.List.Infix

/-!
# Searching behind a clear text

`Clear mark w t` says that no occurrence of the mark starts inside `w` when `t` follows. Then the
search for the mark in `w ++ t` is the search in `t`, with `w` put in front of what it finds:
`cut?_append` for the first occurrence and `splitOn_append` for all of them. `clear_of_double`
is the case that needs care, a mark of one character twice that could start at the end of `w`.
-/

namespace AttributeAccess.Text

theorem isPrefixOf?_append (mark t : Text) : mark.isPrefixOf? (mark ++ t) = some t := by
  induction mark with
  | nil => cases t <;> rfl
  | cons c mark ih =>
    show (if c == c then mark.isPrefixOf? (mark ++ t) else none) = some t
    rw [if_pos (beq_self_eq_true c), ih]

theorem isPrefixOf?_eq_none {mark t : Text} (h : ¬ mark <+: t) : mark.isPrefixOf? t = none := by
  cases hp : mark.isPrefixOf? t with
  | none => rfl
  | some after => exact absurd ⟨after, (eq_append_of_isPrefixOf? hp).symm⟩ h

theorem cut?_self_append {mark : Text} (hm : mark ≠ []) (t : Text) :
    cut? mark (mark ++ t) = some ([], t) := by
  have hp := isPrefixOf?_append mark t
  cases mark with
  | nil => exact absurd rfl hm
  | cons c mark =>
    rw [List.cons_append] at hp ⊢
    rw [cut?, hp]

theorem splitOn_self_append {mark : Text} (hm : mark ≠ []) (t : Text) :
    splitOn mark (mark ++ t) = [] :: splitOn mark t :=
  splitOn_of_cut?_eq_some hm (cut?_self_append hm t)

/-! ## Clear texts -/

/-- No occurrence of `mark` starts inside `w` when `t` follows it. -/
def Clear (mark : Text) : (w t : Text) → Prop
  | [], _ => True
  | c :: w, t => ¬ mark <+: c :: (w ++ t) ∧ Clear mark w t

theorem clear_append {mark u w t : Text} :
    Clear mark (u ++ w) t ↔ Clear mark u (w ++ t) ∧ Clear mark w t := by
  induction u with
  | nil => simp [Clear]
  | cons c u ih => simp only [List.cons_append, Clear, ih, List.append_assoc, and_assoc]

theorem cut?_append {mark w t : Text} (h : Clear mark w t) :
    cut? mark (w ++ t) = (cut? mark t).map fun (before, after) => (w ++ before, after) := by
  induction w with
  | nil => simp
  | cons c w ih =>
    rw [List.cons_append, cut?, isPrefixOf?_eq_none h.1, ih h.2]
    simp [Function.comp_def]

theorem splitOn_append {mark w t : Text} (hm : mark ≠ []) (h : Clear mark w t) :
    splitOn mark (w ++ t) = (splitOn mark t).modifyHead (w ++ ·) := by
  have hcut := cut?_append h
  cases hc : cut? mark t with
  | none =>
    rw [hc] at hcut
    rw [splitOn_of_cut?_eq_none hcut, splitOn_of_cut?_eq_none hc]
    rfl
  | some p =>
    obtain ⟨before, after⟩ := p
    rw [hc] at hcut
    rw [splitOn_of_cut?_eq_some hm hcut, splitOn_of_cut?_eq_some hm hc]
    rfl

theorem cut?_eq_none_of_clear {mark w : Text} (h : Clear mark w []) : cut? mark w = none := by
  have hcut := cut?_append h
  rwa [List.append_nil] at hcut

theorem splitOn_eq_of_clear {mark w : Text} (h : Clear mark w []) : splitOn mark w = [w] :=
  splitOn_of_cut?_eq_none (cut?_eq_none_of_clear h)

theorem position?_append {mark w t : Text} (h : Clear mark w t) :
    position? mark (w ++ t) = (position? mark t).map (w.length + ·) := by
  unfold position?
  rw [cut?_append h, Option.map_map, Option.map_map]
  congr 1
  funext ⟨before, after⟩
  simp

theorem position?_self_append {mark : Text} (hm : mark ≠ []) (t : Text) :
    position? mark (mark ++ t) = some 0 := by
  unfold position?
  rw [cut?_self_append hm]
  rfl

/-- The first occurrence is the one that is found. -/
theorem clear_of_cut? {mark t before after : Text} (h : cut? mark t = some (before, after)) :
    Clear mark before (mark ++ after) := by
  induction t generalizing before with
  | nil => simp [cut?] at h
  | cons c t ih =>
    rw [cut?] at h
    split at h
    · cases h
      trivial
    · next hp =>
      obtain ⟨⟨b, a⟩, hcut, hba⟩ := Option.map_eq_some_iff.1 h
      cases hba
      refine ⟨?_, ih hcut⟩
      rintro ⟨more, hmore⟩
      rw [← List.append_assoc, ← eq_append_of_cut? hcut] at hmore
      rw [← hmore, isPrefixOf?_append] at hp
      cases hp

theorem cut?_of_clear {mark w t : Text} (hm : mark ≠ []) (h : Clear mark w (mark ++ t)) :
    cut? mark (w ++ mark ++ t) = some (w, t) := by
  rw [List.append_assoc, cut?_append h, cut?_self_append hm]
  simp

theorem not_infix_of_clear {mark w t : Text} (hm : mark ≠ []) (h : Clear mark w t) :
    ¬ mark <:+: w := by
  rintro ⟨u, v, rfl⟩
  rw [clear_append, clear_append] at h
  obtain ⟨c, rest, rfl⟩ := List.exists_cons_of_ne_nil hm
  exact h.1.2.1 ⟨v ++ t, by simp⟩

/-! ## What is clear -/

theorem clear_of_not_mem {c : CodePoint} {mark w : Text} (h : c ∉ w) (t : Text) :
    Clear (c :: mark) w t := by
  induction w with
  | nil => trivial
  | cons d w ih =>
    rw [List.mem_cons, not_or] at h
    refine ⟨?_, ih h.2⟩
    rw [List.cons_prefix_cons]
    exact fun hp => h.1 hp.1

/-- A doubled character that does not occur in `w` may still start at its end. -/
theorem clear_of_double {c : CodePoint} {w t : Text} (h : ¬ [c, c] <:+: w)
    (hend : w.getLast? = some c → t.head? ≠ some c) : Clear [c, c] w t := by
  induction w with
  | nil => trivial
  | cons d w ih =>
    have hrest : ¬ [c, c] <:+: w := fun hi => h (hi.trans (List.suffix_cons d w).isInfix)
    cases w with
    | nil =>
      refine ⟨?_, trivial⟩
      intro hp
      obtain ⟨rfl, hnext⟩ := List.cons_prefix_cons.1 hp
      cases t with
      | nil => cases List.prefix_nil.1 hnext
      | cons e t =>
        obtain ⟨rfl, -⟩ := List.cons_prefix_cons.1 hnext
        exact hend rfl rfl
    | cons e w =>
      refine ⟨?_, ih hrest ?_⟩
      · intro hp
        obtain ⟨rfl, hnext⟩ := List.cons_prefix_cons.1 hp
        obtain ⟨rfl, -⟩ := List.cons_prefix_cons.1 hnext
        exact h (List.prefix_append [c, c] w).isInfix
      · rwa [List.getLast?_cons_cons] at hend

theorem getLast?_ne_of_clear {c : CodePoint} {w t : Text} (h : Clear [c, c] w (c :: t)) :
    w.getLast? ≠ some c := by
  intro hlast
  obtain ⟨u, rfl⟩ := List.getLast?_eq_some_iff.1 hlast
  exact (clear_append.1 h).2.1 (List.prefix_append [c, c] t)

/-! ## Occurrences -/

theorem occursIn_iff {mark t : Text} (hm : mark ≠ []) : occursIn mark t = true ↔ mark <:+: t := by
  unfold occursIn
  constructor
  · intro h
    obtain ⟨⟨before, after⟩, hcut⟩ := Option.isSome_iff_exists.1 h
    exact ⟨before, after, (eq_append_of_cut? hcut).symm⟩
  · rintro ⟨before, after, rfl⟩
    induction before with
    | nil =>
      rw [List.nil_append, cut?_self_append hm]
      rfl
    | cons c before ih =>
      rw [List.cons_append, List.cons_append, cut?]
      split
      · rfl
      · rw [Option.isSome_map]
        exact ih

theorem cut?_eq_none_iff {mark t : Text} (hm : mark ≠ []) :
    cut? mark t = none ↔ ¬ mark <:+: t := by
  rw [← occursIn_iff hm, occursIn, Bool.not_eq_true, Option.isSome_eq_false_iff,
    Option.isNone_iff_eq_none]

theorem position?_eq_none_iff {mark t : Text} (hm : mark ≠ []) :
    position? mark t = none ↔ ¬ mark <:+: t := by
  rw [position?, Option.map_eq_none_iff, cut?_eq_none_iff hm]

/-- The first occurrence does not come after any other. -/
theorem exists_position?_le {mark : Text} (hm : mark ≠ []) (before after : Text) :
    ∃ n ≤ before.length, position? mark (before ++ mark ++ after) = some n := by
  unfold position?
  induction before with
  | nil =>
    rw [List.nil_append, cut?_self_append hm]
    exact ⟨0, Nat.le_refl _, rfl⟩
  | cons c before ih =>
    rw [List.cons_append, List.cons_append, cut?]
    split
    · exact ⟨0, Nat.zero_le _, rfl⟩
    · obtain ⟨n, hn, hposition⟩ := ih
      obtain ⟨⟨b, a⟩, hcut, hb⟩ := Option.map_eq_some_iff.1 hposition
      refine ⟨n + 1, Nat.succ_le_succ hn, ?_⟩
      rw [hcut]
      simpa using hb

/-! ## Parts -/

/-- What holds of a text without the mark, and of a text if of what follows the first mark in it. -/
theorem cut?_induction {mark : Text} (hm : mark ≠ []) {P : Text → Prop}
    (last : ∀ t, cut? mark t = none → P t)
    (step : ∀ t before after, cut? mark t = some (before, after) → P after → P t) (t : Text) :
    P t := by
  induction hn : t.length using Nat.strong_induction_on generalizing t with
  | _ n ih =>
    cases hcut : cut? mark t with
    | none => exact last t hcut
    | some parts =>
      obtain ⟨before, after⟩ := parts
      exact step t before after hcut (ih _ (hn ▸ length_lt_of_cut? hm hcut) after rfl)

/-- An occurrence that was found is found in front of anything else. -/
theorem cut?_append_right {mark t before after : Text} (hm : mark ≠ [])
    (h : cut? mark t = some (before, after)) (more : Text) :
    cut? mark (t ++ more) = some (before, after ++ more) := by
  have hclear : ∀ w, Clear mark w (mark ++ after) → Clear mark w (mark ++ (after ++ more)) := by
    intro w hw
    induction w with
    | nil => trivial
    | cons c w ih =>
      refine ⟨fun hp => hw.1 ?_, ih hw.2⟩
      refine List.prefix_of_prefix_length_le hp ?_ ?_
      · exact ⟨more, by simp⟩
      · simp only [List.length_cons, List.length_append]
        omega
  have hcut := cut?_of_clear hm (hclear before (clear_of_cut? h))
  rwa [← List.append_assoc, ← eq_append_of_cut? h] at hcut

end AttributeAccess.Text
