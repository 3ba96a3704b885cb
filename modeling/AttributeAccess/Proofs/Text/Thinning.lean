import AttributeAccess.Proofs.Text.Blank

/-!
# Leaving out blanks

`Thinned u t` says that `u` is `t` with some of its blanks left out; trimming the parts of a text
does that. What is not blank stays in its order (`Thinned.visible_eq`), so what is left of two parts
are two parts (`Thinned.append_inv`), and an end that was not blank stays the end. A place in what
is left can be found in the text again: the characters in front of it that are not blank tell where
(`Thinned.exists_parts`, `eq_of_endsSolid_of_visible_eq`).
-/

namespace AttributeAccess.Text

inductive Thinned : Text → Text → Prop
  | nil : Thinned [] []
  | keep {u t : Text} (c : CodePoint) (h : Thinned u t) : Thinned (c :: u) (c :: t)
  | drop {u t : Text} {c : CodePoint} (hc : isBlank c = true) (h : Thinned u t) : Thinned u (c :: t)

namespace Thinned

variable {u v t : Text}

theorem refl (t : Text) : Thinned t t := by
  induction t with
  | nil => exact .nil
  | cons c t ih => exact .keep c ih

theorem trans (h : Thinned u v) (h' : Thinned v t) : Thinned u t := by
  induction h' generalizing u with
  | nil => exact h
  | keep c h' ih =>
    cases h with
    | keep _ h => exact .keep c (ih h)
    | drop hc h => exact .drop hc (ih h)
  | drop hc h' ih => exact .drop hc (ih h)

theorem subset (h : Thinned u t) : u ⊆ t := by
  induction h with
  | nil => exact List.Subset.refl []
  | keep c _ ih => exact List.cons_subset_cons c ih
  | drop _ _ ih => exact List.subset_cons_of_subset _ ih

theorem append {u' t' : Text} (h : Thinned u t) (h' : Thinned u' t') :
    Thinned (u ++ u') (t ++ t') := by
  induction h with
  | nil => exact h'
  | keep c h ih => exact .keep c ih
  | drop hc h ih => exact .drop hc ih

/-- What is left of two parts are two parts. -/
theorem append_inv {w t' : Text} (h : Thinned w (t ++ t')) :
    ∃ u u', w = u ++ u' ∧ Thinned u t ∧ Thinned u' t' := by
  induction t generalizing w with
  | nil => exact ⟨[], w, rfl, .nil, h⟩
  | cons c t ih =>
    cases h with
    | keep _ h =>
      obtain ⟨u, u', rfl, hu, hu'⟩ := ih h
      exact ⟨c :: u, u', rfl, .keep c hu, hu'⟩
    | drop hc h =>
      obtain ⟨u, u', rfl, hu, hu'⟩ := ih h
      exact ⟨u, u', rfl, .drop hc hu, hu'⟩

/-- Two parts of what is left come from two parts. -/
theorem of_append {u' w : Text} (h : Thinned (u ++ u') w) :
    ∃ t t', w = t ++ t' ∧ Thinned u t ∧ Thinned u' t' := by
  induction w generalizing u with
  | nil =>
    cases u with
    | nil => exact ⟨[], [], rfl, .nil, h⟩
    | cons c u => cases h
  | cons c w ih =>
    cases u with
    | nil => exact ⟨[], c :: w, rfl, .nil, h⟩
    | cons d u =>
      cases h with
      | keep _ h =>
        obtain ⟨t, t', rfl, ht, ht'⟩ := ih h
        exact ⟨c :: t, t', rfl, .keep c ht, ht'⟩
      | drop hc h =>
        obtain ⟨t, t', rfl, ht, ht'⟩ := ih h
        exact ⟨c :: t, t', rfl, .drop hc ht, ht'⟩

theorem length_le (h : Thinned u t) : u.length ≤ t.length := by
  induction h with
  | nil => exact Nat.le_refl _
  | keep c h ih => exact Nat.succ_le_succ ih
  | drop hc h ih => exact Nat.le_succ_of_le ih

theorem eq_of_length_le (h : Thinned u t) (hlen : t.length ≤ u.length) : u = t := by
  induction h with
  | nil => rfl
  | keep c h ih => rw [ih (Nat.le_of_succ_le_succ hlen)]
  | drop hc h _ => exact absurd (Nat.le_trans hlen h.length_le) (Nat.not_succ_le_self _)

theorem allBlank (h : Thinned u t) (ht : AllBlank t) : AllBlank u := by
  induction h with
  | nil => exact ht
  | keep c h ih =>
    rw [allBlank_cons] at ht ⊢
    exact ⟨ht.1, ih ht.2⟩
  | drop hc h ih => exact ih (allBlank_cons.1 ht).2

theorem eq_of_forall (h : Thinned u t) (ht : ∀ c ∈ t, isBlank c = false) : u = t := by
  induction h with
  | nil => rfl
  | keep c h ih => rw [ih fun d hd => ht d (List.mem_cons_of_mem _ hd)]
  | drop hc h ih =>
    rw [ht _ List.mem_cons_self] at hc
    cases hc

/-! ## Ends -/

theorem head?_eq (h : Thinned u t) (ht : StartsSolid t) : u.head? = t.head? := by
  cases h with
  | nil => rfl
  | keep c h => rfl
  | drop hc h =>
    rw [ht _ rfl] at hc
    cases hc

theorem reverse (h : Thinned u t) : Thinned u.reverse t.reverse := by
  induction h with
  | nil => exact .nil
  | keep c h ih =>
    rw [List.reverse_cons, List.reverse_cons]
    exact ih.append (.refl [c])
  | @drop u t c hc h ih =>
    have hlast := ih.append (.drop hc .nil : Thinned [] [c])
    rwa [List.append_nil, ← List.reverse_cons] at hlast

theorem getLast?_eq (h : Thinned u t) (ht : EndsSolid t) : u.getLast? = t.getLast? := by
  rw [← List.head?_reverse, ← List.head?_reverse]
  refine h.reverse.head?_eq ?_
  intro c hc
  rw [List.head?_reverse] at hc
  exact ht c hc

theorem startsSolid (h : Thinned u t) (ht : StartsSolid t) : StartsSolid u := by
  intro c hc
  rw [h.head?_eq ht] at hc
  exact ht c hc

theorem endsSolid (h : Thinned u t) (ht : EndsSolid t) : EndsSolid u := by
  intro c hc
  rw [h.getLast?_eq ht] at hc
  exact ht c hc

/-! ## Trimming -/

theorem trimStart (t : Text) : Thinned (trimStart t) t := by
  induction t with
  | nil => exact .nil
  | cons c t ih =>
    by_cases hc : isBlank c = true
    · rw [Text.trimStart, List.dropWhile_cons_of_pos hc]
      exact .drop hc ih
    · rw [Text.trimStart, List.dropWhile_cons_of_neg hc]
      exact .refl _

theorem trimEnd (t : Text) : Thinned (trimEnd t) t := by
  have h := (trimStart t.reverse).reverse
  rwa [List.reverse_reverse] at h

theorem trim (t : Text) : Thinned (trim t) t :=
  (trimEnd _).trans (trimStart t)

theorem joinWith_map (mark : Text) {f : Text → Text} (hf : ∀ t, Thinned (f t) t) (ts : List Text) :
    Thinned (joinWith mark (ts.map f)) (joinWith mark ts) := by
  induction ts with
  | nil => exact .nil
  | cons t ts ih =>
    cases ts with
    | nil => exact hf t
    | cons u us =>
      rw [List.map_cons, joinWith_cons (by simp), joinWith_cons (by simp)]
      exact ((hf t).append (.refl mark)).append ih

end Thinned

/-! ## Visible characters -/

def visible (t : Text) : Text :=
  t.filter fun c => !isBlank c

@[simp] theorem visible_append (u t : Text) : visible (u ++ t) = visible u ++ visible t :=
  List.filter_append ..

theorem visible_cons {c : CodePoint} (hc : isBlank c = false) (t : Text) :
    visible (c :: t) = c :: visible t :=
  List.filter_cons_of_pos (by simp [hc])

theorem AllBlank.visible_eq {gap : Text} (h : AllBlank gap) : visible gap = [] := by
  refine List.filter_eq_nil_iff.2 fun c hc => ?_
  simp [h c hc]

theorem Thinned.visible_eq {u t : Text} (h : Thinned u t) : visible u = visible t := by
  induction h with
  | nil => rfl
  | keep c h ih =>
    unfold visible at ih ⊢
    rw [List.filter_cons, List.filter_cons, ih]
  | drop hc h ih =>
    rw [ih]
    exact (List.filter_cons_of_neg (by simp [hc])).symm

theorem allBlank_of_visible_eq {t : Text} (h : visible t = []) : AllBlank t := by
  intro c hc
  simpa using List.filter_eq_nil_iff.1 h c hc

/-- Texts that end solid with the same visible characters are the same start of a text. -/
theorem eq_of_endsSolid_of_visible_eq {u t x y : Text} (h : u ++ x = t ++ y) (hu : EndsSolid u)
    (ht : EndsSolid t) (hv : visible u = visible t) : u = t := by
  have hnil : ∀ {w w' gap : Text}, w' = w ++ gap → EndsSolid w' → visible w = visible w' →
      gap = [] := by
    rintro w _ gap rfl hsolid hsame
    rw [visible_append, List.self_eq_append_right] at hsame
    rcases List.eq_nil_or_concat' gap with rfl | ⟨g, c, rfl⟩
    · rfl
    · have hblank := allBlank_of_visible_eq hsame c (by simp)
      rw [hsolid c (by rw [← List.append_assoc, List.getLast?_concat]; rfl)] at hblank
      cases hblank
  rcases List.append_eq_append_iff.1 h with ⟨w, rfl, -⟩ | ⟨w, rfl, -⟩
  · rw [hnil rfl ht hv, List.append_nil]
  · rw [hnil rfl hu hv.symm, List.append_nil]

/-- A place in what is left comes from one in the text, with the blanks there apart. -/
theorem Thinned.exists_parts {x y t : Text} (h : Thinned (x ++ y) t) :
    ∃ u gap v, t = u ++ (gap ++ v) ∧ EndsSolid u ∧ AllBlank gap ∧ StartsSolid v ∧
      visible x = visible u := by
  obtain ⟨before, after, rfl, hbefore, -⟩ := h.of_append
  obtain ⟨u, gap, rfl, hu, hgap⟩ := exists_endsSolid_append before
  obtain ⟨gap', v, rfl, hgap', hv⟩ := exists_append_startsSolid after
  refine ⟨u, gap ++ gap', v, by simp only [List.append_assoc], hu, hgap.append hgap', hv, ?_⟩
  rw [hbefore.visible_eq, visible_append, hgap.visible_eq, List.append_nil]

/-- In front of the same visible character the same visible characters are the same text. -/
theorem eq_of_visible_eq {u t x y : Text} {c : CodePoint} (hc : isBlank c = false)
    (h : u ++ c :: x = t ++ c :: y) (hv : visible u = visible t) : u = t := by
  have hlen : ∀ {w w' z : Text}, w' = w ++ c :: z → (visible w).length < (visible w').length := by
    rintro w _ z rfl
    rw [visible_append, visible_cons hc, List.length_append, List.length_cons]
    omega
  rcases List.append_eq_append_iff.1 h with ⟨w, ht, hx⟩ | ⟨w, hu, hy⟩
  · cases w with
    | nil => rw [ht, List.append_nil]
    | cons d w =>
      cases hx
      exact absurd (hlen ht) (by rw [hv]; exact Nat.lt_irrefl _)
  · cases w with
    | nil => rw [hu, List.append_nil]
    | cons d w =>
      cases hy
      exact absurd (hlen hu) (by rw [hv]; exact Nat.lt_irrefl _)

end AttributeAccess.Text
