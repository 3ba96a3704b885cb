import AttributeAccess.Text.Blank
import Mathlib.Data.List.DropRight

/-!
# Trimming around solid texts

A text is solid when it starts and ends with a character that is not blank. Trimming stops there:
of the blanks around a solid text only those at the ends of the whole text go (`Solid.trim_append`,
`Solid.trimEnd_append`). A text that trimming leaves alone is solid or empty.
-/

namespace AttributeAccess.Text

def AllBlank (t : Text) : Prop := ∀ c ∈ t, isBlank c = true

instance (t : Text) : Decidable (AllBlank t) :=
  List.decidableBAll (fun c => isBlank c = true) t

structure Solid (w : Text) : Prop where
  first : ∃ c u, w = c :: u ∧ isBlank c = false
  last : ∃ u c, w = u ++ [c] ∧ isBlank c = false

theorem trimEnd_eq_rdropWhile (t : Text) : trimEnd t = t.rdropWhile isBlank := rfl

/-! ## Blanks alone -/

theorem allBlank_nil : AllBlank [] := by
  intro c hc
  cases hc

theorem allBlank_cons {c : CodePoint} {t : Text} :
    AllBlank (c :: t) ↔ isBlank c = true ∧ AllBlank t :=
  List.forall_mem_cons

namespace AllBlank

variable {gap : Text}

theorem append {u : Text} (h : AllBlank gap) (hu : AllBlank u) : AllBlank (gap ++ u) := by
  intro c hc
  rcases List.mem_append.1 hc with hc | hc
  · exact h c hc
  · exact hu c hc

theorem trimStart_append (h : AllBlank gap) (t : Text) : trimStart (gap ++ t) = trimStart t :=
  List.dropWhile_append_of_pos h

theorem trimEnd_eq_nil (h : AllBlank gap) : trimEnd gap = [] := by
  rw [trimEnd_eq_rdropWhile, List.rdropWhile_eq_nil_iff]
  exact h

theorem trim_eq_nil (h : AllBlank gap) : trim gap = [] := by
  unfold trim trimStart
  rw [List.dropWhile_eq_nil_iff.2 h]
  rfl

end AllBlank

/-! ## Solid texts -/

/-- Nothing is trimmed beyond a character that is not blank. -/
theorem trimEnd_concat_append (u t : Text) {c : CodePoint} (hc : isBlank c = false) :
    trimEnd (u ++ [c] ++ t) = u ++ [c] ++ trimEnd t := by
  have hstop : (c :: u.reverse).dropWhile isBlank = c :: u.reverse :=
    List.dropWhile_cons_of_neg (by simp [hc])
  have hrev : (u ++ [c] ++ t).reverse = t.reverse ++ c :: u.reverse := by simp
  unfold trimEnd dropEndWhile
  rw [hrev, List.dropWhile_append]
  split
  · next hnil =>
    rw [List.isEmpty_iff.1 hnil, hstop]
    simp
  · simp

namespace Solid

variable {w : Text}

theorem trimEnd_append (h : Solid w) (gap t : Text) :
    trimEnd (gap ++ w ++ t) = gap ++ w ++ trimEnd t := by
  obtain ⟨u, c, rfl, hc⟩ := h.last
  have hgap := trimEnd_concat_append (gap ++ u) t hc
  simpa only [List.append_assoc] using hgap

theorem trim_append (h : Solid w) {gap : Text} (hgap : AllBlank gap) (t : Text) :
    trim (gap ++ w ++ t) = w ++ trimEnd t := by
  have hstart : trimStart (w ++ t) = w ++ t := by
    obtain ⟨c, u, rfl, hc⟩ := h.first
    exact List.dropWhile_cons_of_neg (by simp [hc])
  unfold trim
  rw [List.append_assoc, hgap.trimStart_append, hstart]
  exact h.trimEnd_append [] t

end Solid

/-! ## Ends that are not blank -/

def StartsSolid (t : Text) : Prop := ∀ c ∈ t.head?, isBlank c = false

def EndsSolid (t : Text) : Prop := ∀ c ∈ t.getLast?, isBlank c = false

instance (t : Text) : Decidable (StartsSolid t) :=
  Option.decidableForallMem t.head?

instance (t : Text) : Decidable (EndsSolid t) :=
  Option.decidableForallMem t.getLast?

theorem endsSolid_nil : EndsSolid [] := by
  intro c hc
  cases hc

theorem StartsSolid.of_isPrefix {t u : Text} (h : StartsSolid t) (hu : u <+: t) :
    StartsSolid u := by
  intro c hc
  obtain ⟨rest, rfl⟩ := hu
  refine h c ?_
  cases u with
  | nil => cases hc
  | cons d u => exact hc

theorem EndsSolid.of_suffix {t u : Text} (h : EndsSolid t) (hu : u <:+ t) : EndsSolid u := by
  intro c hc
  obtain ⟨rest, rfl⟩ := hu
  refine h c ?_
  rw [List.getLast?_append, hc]
  rfl

namespace Solid

variable {w : Text}

theorem startsSolid (h : Solid w) : StartsSolid w := by
  obtain ⟨c, u, rfl, hc⟩ := h.first
  intro d hd
  cases hd
  exact hc

theorem endsSolid (h : Solid w) : EndsSolid w := by
  obtain ⟨u, c, rfl, hc⟩ := h.last
  intro d hd
  rw [List.getLast?_concat] at hd
  cases hd
  exact hc

theorem ne_nil (h : Solid w) : w ≠ [] := by
  obtain ⟨c, u, rfl, -⟩ := h.first
  exact List.cons_ne_nil c u

theorem append {v : Text} (h : Solid w) (hv : Solid v) (gap : Text) : Solid (w ++ (gap ++ v)) := by
  obtain ⟨c, u, rfl, hc⟩ := h.first
  obtain ⟨u', d, rfl, hd⟩ := hv.last
  exact ⟨⟨c, _, rfl, hc⟩, ⟨c :: u ++ (gap ++ u'), d, by simp, hd⟩⟩

end Solid

theorem solid_of_ends {w : Text} (hne : w ≠ []) (hs : StartsSolid w) (he : EndsSolid w) :
    Solid w := by
  constructor
  · obtain ⟨c, u, rfl⟩ := List.exists_cons_of_ne_nil hne
    exact ⟨c, u, rfl, hs c rfl⟩
  · obtain ⟨u, c, rfl⟩ := (List.eq_nil_or_concat' w).resolve_left hne
    exact ⟨u, c, rfl, he c List.getLast?_concat⟩

theorem startsSolid_append {u v : Text} (hu : StartsSolid u) (hv : u = [] → StartsSolid v) :
    StartsSolid (u ++ v) := by
  cases u with
  | nil => exact hv rfl
  | cons c u => exact hu

theorem endsSolid_append {u v : Text} (hv : EndsSolid v) (hu : v = [] → EndsSolid u) :
    EndsSolid (u ++ v) := by
  rcases List.eq_nil_or_concat' v with rfl | ⟨w, c, rfl⟩
  · rw [List.append_nil]
    exact hu rfl
  · intro d hd
    rw [← List.append_assoc, List.getLast?_concat] at hd
    cases hd
    exact hv c List.getLast?_concat

theorem trim_infix (t : Text) : trim t <:+: t :=
  (List.rdropWhile_prefix isBlank _).isInfix.trans (List.dropWhile_suffix isBlank).isInfix

theorem startsSolid_trimStart (t : Text) : StartsSolid (trimStart t) := by
  intro c hc
  have hnot := List.head?_dropWhile_not isBlank t
  rw [show (t.dropWhile isBlank).head? = some c from hc] at hnot
  exact hnot

theorem startsSolid_trim (t : Text) : StartsSolid (trim t) :=
  (startsSolid_trimStart t).of_isPrefix (List.rdropWhile_prefix isBlank _)

theorem endsSolid_trimEnd (t : Text) : EndsSolid (trimEnd t) := by
  intro c hc
  obtain ⟨u, hu⟩ := List.getLast?_eq_some_iff.1 hc
  have hne : t.rdropWhile isBlank ≠ [] := by
    rw [← trimEnd_eq_rdropWhile, hu]
    exact List.concat_ne_nil _ _
  have hlast := List.rdropWhile_last_not isBlank t hne
  have hget : (t.rdropWhile isBlank).getLast hne = c := by
    simp only [← trimEnd_eq_rdropWhile, hu, List.getLast_append_singleton]
  rw [hget] at hlast
  simpa using hlast

/-- Every text is one that ends solid, with blanks behind it. -/
theorem exists_endsSolid_append (t : Text) :
    ∃ w gap, t = w ++ gap ∧ EndsSolid w ∧ AllBlank gap :=
  ⟨trimEnd t, t.rtakeWhile isBlank, List.rdropWhile_append_rtakeWhile.symm,
    endsSolid_trimEnd t, fun _ => List.mem_rtakeWhile_imp⟩

/-- Every text is one that starts solid, with blanks in front of it. -/
theorem exists_append_startsSolid (t : Text) :
    ∃ gap w, t = gap ++ w ∧ AllBlank gap ∧ StartsSolid w :=
  ⟨t.takeWhile isBlank, trimStart t, List.takeWhile_append_dropWhile.symm,
    fun _ => List.mem_takeWhile_imp, startsSolid_trimStart t⟩

theorem StartsSolid.trimStart_eq {t : Text} (h : StartsSolid t) : trimStart t = t := by
  cases t with
  | nil => rfl
  | cons c t => exact List.dropWhile_cons_of_neg (by simp [h c rfl])

/-- Blanks in front of a text that starts solid are all that can be trimmed there. -/
theorem eq_of_gap_append {gap gap' u v : Text} (h : gap ++ u = gap' ++ v) (hgap : AllBlank gap)
    (hgap' : AllBlank gap') (hu : StartsSolid u) (hv : StartsSolid v) : gap = gap' ∧ u = v := by
  have htrim := congrArg trimStart h
  rw [hgap.trimStart_append, hgap'.trimStart_append, hu.trimStart_eq, hv.trimStart_eq] at htrim
  subst htrim
  exact ⟨List.append_cancel_right h, rfl⟩

theorem EndsSolid.trimEnd_eq {t : Text} (h : EndsSolid t) : trimEnd t = t := by
  rcases List.eq_nil_or_concat' t with rfl | ⟨u, c, rfl⟩
  · rfl
  · have hself := trimEnd_concat_append u [] (h c List.getLast?_concat)
    rw [List.append_nil] at hself
    exact hself.trans (List.append_nil _)

theorem trim_eq_self {t : Text} (hs : StartsSolid t) (he : EndsSolid t) : trim t = t := by
  unfold trim
  rw [hs.trimStart_eq, he.trimEnd_eq]

theorem endsSolid_iff_trimEnd_eq {t : Text} : EndsSolid t ↔ trimEnd t = t :=
  ⟨EndsSolid.trimEnd_eq, fun h => h ▸ endsSolid_trimEnd t⟩

/-- A character that is not blank keeps what stands behind it. -/
theorem trimStart_concat_append (u : Text) {c : CodePoint} (hc : isBlank c = false) :
    ∃ w, ∀ t, trimStart (u ++ [c] ++ t) = w ++ [c] ++ t := by
  induction u with
  | nil => exact ⟨[], fun t => List.dropWhile_cons_of_neg (by simp [hc])⟩
  | cons d u ih =>
    by_cases hd : isBlank d = true
    · obtain ⟨w, hw⟩ := ih
      exact ⟨w, fun t => (List.dropWhile_cons_of_pos hd).trans (hw t)⟩
    · exact ⟨d :: u, fun t => List.dropWhile_cons_of_neg hd⟩

/-- Behind a text that ends solid only the end is trimmed. -/
theorem EndsSolid.trim_append {u : Text} (hu : EndsSolid u) (hne : u ≠ []) (t : Text) :
    trim (u ++ t) = trim u ++ trimEnd t := by
  obtain ⟨u, c, rfl⟩ := (List.eq_nil_or_concat' u).resolve_left hne
  have hc : isBlank c = false := hu c List.getLast?_concat
  obtain ⟨w, hw⟩ := trimStart_concat_append u hc
  have hself : trim (u ++ [c]) = w ++ [c] := by
    have hstart := hw []
    rw [List.append_nil, List.append_nil] at hstart
    unfold trim
    rw [hstart]
    exact EndsSolid.trimEnd_eq fun d hd => by simp at hd; exact hd ▸ hc
  rw [hself]
  unfold trim
  rw [hw, trimEnd_concat_append w t hc]

/-- In front of a text that starts solid blanks are kept. -/
theorem StartsSolid.trimEnd_append {t : Text} (ht : StartsSolid t) (hne : t ≠ []) (gap : Text) :
    trimEnd (gap ++ t) = gap ++ trim t := by
  obtain ⟨c, t, rfl⟩ := List.exists_cons_of_ne_nil hne
  have hc : isBlank c = false := ht c rfl
  have hself : trim (c :: t) = c :: trimEnd t := by
    unfold trim
    rw [ht.trimStart_eq]
    exact trimEnd_concat_append [] t hc
  rw [hself]
  simpa using trimEnd_concat_append gap t hc

theorem solid_of_trim_eq {w : Text} (hne : w ≠ []) (h : trim w = w) : Solid w := by
  have hsuffix : trimStart w <:+ w := List.dropWhile_suffix isBlank
  have hprefix : trim w <+: trimStart w := List.rdropWhile_prefix isBlank _
  rw [h] at hprefix
  have hstart : trimStart w = w := hsuffix.eq_of_length_le hprefix.length_le
  have hend : trimEnd w = w := by
    unfold trim at h
    rwa [hstart] at h
  constructor
  · cases w with
    | nil => exact absurd rfl hne
    | cons c u =>
      have hself := List.dropWhile_eq_self_iff.1 hstart (Nat.succ_pos _)
      exact ⟨c, u, rfl, by simpa using hself⟩
  · have hself := List.rdropWhile_eq_self_iff.1 hend hne
    exact ⟨w.dropLast, w.getLast hne, (List.dropLast_append_getLast hne).symm, by simpa using hself⟩

end AttributeAccess.Text
