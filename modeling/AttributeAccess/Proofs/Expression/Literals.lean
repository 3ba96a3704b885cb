import AttributeAccess.Proofs.Expression.Parser
import AttributeAccess.Proofs.Expression.Passes
import Mathlib.Data.List.Chain

/-!
# The literals that are read

There are no tokens: a literal is what the operators leave of a text, after the passes. It follows
what an attribute among the literals of an expression can be, `Attribute.Expressible`, and each such
attribute is read from some text (`mem_literals_parse_iff`). Most of it is as in the grammar, where
both words are plain. But a parenthesis that does not stand in front stays in the literal, without
blanks beside it (`Snug`). And the last pass trims the text in front of a separator, colon
included, that the reader then takes for the start of the separator: blanks in front of that colon
end the axis.
-/

namespace AttributeAccess

namespace Expression

/-! ## No blank beside a parenthesis -/

/-- No blank stands beside the character. -/
def Snug (c : CodePoint) (t : Text) : Prop :=
  t.IsChain fun a b => (a = c → isBlank b = false) ∧ (b = c → isBlank a = false)

instance (c : CodePoint) (t : Text) : Decidable (Snug c t) :=
  inferInstanceAs (Decidable (t.IsChain _))

theorem snug_of_not_mem {c : CodePoint} {t : Text} (h : c ∉ t) : Snug c t := by
  induction t with
  | nil => exact .nil
  | cons a t ih =>
    rw [List.mem_cons, not_or] at h
    cases t with
    | nil => exact .singleton a
    | cons b t =>
      refine .cons_cons ⟨fun ha => absurd ha.symm h.1, fun hb => ?_⟩ (ih h.2)
      exact absurd (hb ▸ List.mem_cons_self) h.2

theorem snug_append {c : CodePoint} {u v : Text} :
    Snug c (u ++ v) ↔ Snug c u ∧ Snug c v ∧ ∀ a ∈ u.getLast?, ∀ b ∈ v.head?,
      (a = c → isBlank b = false) ∧ (b = c → isBlank a = false) :=
  List.isChain_append

/-- Around an occurrence of the character the ends are solid, and nothing else is asked there. -/
theorem snug_around {c : CodePoint} (hc : isBlank c = false) {u v : Text} :
    Snug c (u ++ [c] ++ v) ↔ Snug c u ∧ u.EndsSolid ∧ Snug c v ∧ v.StartsSolid := by
  rw [snug_append, snug_append]
  have hlast : (u ++ [c]).getLast? = some c := List.getLast?_concat
  constructor
  · rintro ⟨⟨hu, -, hbefore⟩, hv, hafter⟩
    exact ⟨hu, fun a ha => (hbefore a ha c rfl).2 rfl, hv, fun b hb => (hafter c hlast b hb).1 rfl⟩
  · rintro ⟨hu, he, hv, hs⟩
    refine ⟨⟨hu, .singleton c, fun a ha b hb => ?_⟩, hv, fun a ha b hb => ?_⟩
    · cases hb
      exact ⟨fun _ => hc, fun _ => he a ha⟩
    · rw [hlast] at ha
      cases ha
      exact ⟨fun _ => hs b hb, fun _ => hc⟩

/-- A blank may stand where the character is on neither side. -/
theorem Snug.insert {c d : CodePoint} (hc : isBlank c = false) (hd : isBlank d = true) {u v : Text}
    (h : Snug c (u ++ v)) (hu : u.getLast? ≠ some c) (hv : v.head? ≠ some c) :
    Snug c (u ++ d :: v) := by
  obtain ⟨hsu, hsv, -⟩ := snug_append.1 h
  have hdc : d ≠ c := by
    rintro rfl
    rw [hc] at hd
    cases hd
  refine snug_append.2 ⟨hsu, ?_, fun a ha b hb => ⟨fun hac => ?_, fun hbc => ?_⟩⟩
  · cases v with
    | nil => exact .singleton d
    | cons b v =>
      exact .cons_cons ⟨fun hdc' => absurd hdc' hdc, fun hb => absurd (by simp [hb]) hv⟩ hsv
  · exact absurd (hac ▸ ha) hu
  · cases hb
    exact absurd hbc hdc

theorem Snug.thinned_behind {c a : CodePoint} {u t : Text} (hu : Text.Thinned u t)
    (h : Snug c (a :: t)) : Snug c (a :: u) := by
  induction hu generalizing a with
  | nil => exact h
  | keep d _ ih =>
    obtain ⟨had, h⟩ := List.isChain_cons_cons.1 h
    exact .cons_cons had (ih h)
  | @drop u t d hd _ ih =>
    obtain ⟨had, h⟩ := List.isChain_cons_cons.1 h
    have ha : a ≠ c := fun hac => absurd (had.1 hac) (by simp [hd])
    refine ih ?_
    cases t with
    | nil => exact .singleton a
    | cons e t =>
      obtain ⟨hde, h⟩ := List.isChain_cons_cons.1 h
      exact .cons_cons ⟨fun hac => absurd hac ha, fun hec => absurd (hde.2 hec) (by simp [hd])⟩ h

/-- Leaving out blanks puts none beside the character. -/
theorem Snug.thinned {c : CodePoint} {u t : Text} (hu : Text.Thinned u t) (h : Snug c t) :
    Snug c u := by
  induction hu with
  | nil => exact h
  | keep d hu _ => exact h.thinned_behind hu
  | drop _ _ ih => exact ih h.tail

theorem snug_tighten {m : Mark} (hm : m.text = [m.char]) (t : Text) :
    Snug m.char (tighten m.text t) := by
  induction t using Text.cut?_induction m.text_ne_nil with
  | last t hcut =>
    have hin := (Text.cut?_eq_none_iff m.text_ne_nil).1 hcut
    rw [tighten_of_absent hin]
    exact snug_of_not_mem fun hmem => Mark.char_not_mem hm hin ((Text.trim_infix t).subset hmem)
  | step t before after hcut ih =>
    have hparts : tighten m.text t = before.trim ++ [m.char] ++ tighten m.text after := by
      rw [← hm]
      exact tighten_of_cut? hcut
    have hin := Text.not_infix_of_clear m.text_ne_nil (Text.clear_of_cut? hcut)
    have hbefore : Snug m.char before.trim := snug_of_not_mem fun hmem =>
      Mark.char_not_mem hm hin ((Text.trim_infix before).subset hmem)
    rw [hparts]
    exact (snug_around m.isBlank_char).2
      ⟨hbefore, Text.endsSolid_trimEnd _, ih, startsSolid_tighten m after⟩

theorem Snug.tight {m : Mark} (hm : m.text = [m.char]) {t : Text} (h : Snug m.char t) :
    Tight m t := by
  rintro u v rfl
  rw [hm, ← List.append_assoc, snug_around m.isBlank_char] at h
  exact ⟨h.2.1, h.2.2.2⟩

/-- Where no blank stands beside the parenthesis its pass changes nothing. -/
theorem tighten_of_snug {m : Mark} (hm : m.text = [m.char]) {t : Text} (hsnug : Snug m.char t)
    (hs : t.StartsSolid) (he : t.EndsSolid) : tighten m.text t = t :=
  tighten_of_tight (hsnug.tight hm) hs he

/-- Beside a parenthesis no blank is left. -/
theorem snug_withoutBlanks (t : Text) :
    Snug (.char '(') (withoutBlanks t) ∧ Snug (.char ')') (withoutBlanks t) := by
  have hopen : withoutBlanks t =
      passes [.closing, .or, .and, .separator] (tighten Mark.opening.text t) := by
    rw [withoutBlanks_eq_passes]
    exact passes_cons .opening _ t
  have hclose : withoutBlanks t = passes [.or, .and, .separator]
      (tighten Mark.closing.text (tighten Mark.opening.text t)) := by
    rw [hopen, passes_cons]
  constructor
  · rw [hopen]
    exact (snug_tighten (m := .opening) rfl t).thinned (thinned_passes _ _)
  · rw [hclose]
    exact (snug_tighten (m := .closing) rfl _).thinned (thinned_passes _ _)

theorem withoutBlanks_of_snug {t : Text} (hs : t.StartsSolid) (he : t.EndsSolid)
    (hopen : Snug (.char '(') t) (hclose : Snug (.char ')') t) (hop : operatorPosition? t = none) :
    withoutBlanks t = tighten Mark.separator.text t := by
  have habsent : ∀ op : Operator, tighten op.mark.text t = t := by
    intro op
    rw [tighten_of_absent (operatorPosition?_eq_none_iff.1 hop op), Text.trim_eq_self hs he]
  have hor : tighten Mark.or.text t = t := habsent .or
  have hand : tighten Mark.and.text t = t := habsent .and
  rw [withoutBlanks_eq_tighten, passes_cons, @tighten_of_snug .opening rfl t hopen hs he,
    passes_cons, @tighten_of_snug .closing rfl t hclose hs he, passes_cons, hor, passes_cons, hand,
    passes_nil]

end Expression

open Expression

namespace Attribute

/-- What the literals of an expression can be. Parentheses may stand in a literal, except in front
of it, and the axis may end with blanks where the name starts with a colon. -/
structure Expressible (a : Attribute) : Prop where
  axis_ne_nil : a.axis ≠ []
  name_ne_nil : a.name ≠ []
  no_mark : ∀ m ∈ [orMark, andMark, separator], ¬ m <:+: a.axis ∧ ¬ m <:+: a.name
  axis_end : a.axis.getLast? ≠ some (.char ':')
  axis_start : a.axis.head? ≠ some (.char '(')
  axis_startsSolid : a.axis.StartsSolid
  name_startsSolid : a.name.StartsSolid
  name_endsSolid : a.name.EndsSolid
  snug : Snug (.char '(') a.text ∧ Snug (.char ')') a.text
  axis_endsSolid : a.axis.EndsSolid ∨ ∃ rest : Text, a.name = .char ':' :: rest ∧ rest.StartsSolid

end Attribute

namespace Expression

variable {a : Attribute}

theorem shape_literal_iff {t : Text} :
    shape t = .ok (.literal a) ↔ withoutBlanks t = a.text ∧ a.text.head? ≠ some (.char '(') ∧
      operatorPosition? a.text = none ∧ a.Representable := by
  unfold shape
  rw [shapeOf_eq_ok_iff]
  constructor
  · rintro ⟨-, hshows⟩
    generalize withoutBlanks t = w at hshows
    cases hshows with
    | literal hhead hop ha => exact ⟨rfl, hhead, hop, ha⟩
  · rintro ⟨hw, hhead, hop, ha⟩
    rw [hw]
    exact ⟨⟨a.axis, a.name, rfl⟩, .literal hhead hop ha⟩

/-- The last pass trims both words, but where the text in front of the separator ends with a colon
the reader cuts before that. -/
theorem ends_of_withoutBlanks {t : Text} (h : withoutBlanks t = a.text) (ha : a.Representable) :
    a.name.StartsSolid ∧
      (a.axis.EndsSolid ∨ ∃ rest : Text, a.name = .char ':' :: rest ∧ rest.StartsSolid) := by
  rw [withoutBlanks_eq_tighten] at h
  generalize passes [.opening, .closing, .or, .and] t = s at h
  cases hcut : Text.cut? Mark.separator.text s with
  | none =>
    have hin := (Text.cut?_eq_none_iff Mark.separator.text_ne_nil).1 hcut
    rw [tighten_of_absent hin] at h
    exact absurd (List.IsInfix.trans ⟨a.axis, a.name, h.symm⟩ (Text.trim_infix s)) hin
  | some parts =>
    obtain ⟨before, after⟩ := parts
    rw [tighten_of_cut? hcut] at h
    have hin := Text.not_infix_of_clear Mark.separator.text_ne_nil (Text.clear_of_cut? hcut)
    by_cases hcolon : before.trim.getLast? = some (.char ':')
    · obtain ⟨axis, haxis⟩ := List.getLast?_eq_some_iff.1 hcolon
      have hend : axis.getLast? ≠ some (.char ':') := by
        intro hlast
        obtain ⟨u, rfl⟩ := List.getLast?_eq_some_iff.1 hlast
        refine hin (List.IsInfix.trans ⟨u, [], ?_⟩ (Text.trim_infix before))
        rw [haxis, List.append_nil, List.append_assoc]
        rfl
      have hself := ha.eq_of_axis_end
        (b := ⟨axis, .char ':' :: tighten Mark.separator.text after⟩) (by
          rw [← h, haxis]
          simp [Attribute.text, Mark.text, Attribute.separator]) hend
      rw [← hself]
      refine ⟨?_, .inr ⟨_, rfl, startsSolid_tighten .separator after⟩⟩
      intro c hc
      cases hc
      rfl
    · have hself := ha.eq_of_axis_end (b := ⟨before.trim, tighten Mark.separator.text after⟩) h
        hcolon
      rw [← hself]
      exact ⟨startsSolid_tighten .separator after, .inl (Text.endsSolid_trimEnd _)⟩

theorem expressible_of_shape {t : Text} (h : shape t = .ok (.literal a)) : a.Expressible := by
  obtain ⟨hw, hhead, hop, ha⟩ := shape_literal_iff.1 h
  obtain ⟨hcut, hname, haxis, hne⟩ := Attribute.ofText?_eq_some_iff.1 ha
  obtain ⟨hstarts, hgap⟩ := ends_of_withoutBlanks hw ha
  have hstart : a.axis <+: a.text := ⟨Attribute.separator ++ a.name, (List.append_assoc ..).symm⟩
  have hend : a.name <:+ a.text := ⟨a.axis ++ Attribute.separator, rfl⟩
  have hsolid : a.text.StartsSolid ∧ a.text.EndsSolid := by
    rw [← hw]
    exact ⟨startsSolid_withoutBlanks t, endsSolid_withoutBlanks t⟩
  have hoperator := operatorPosition?_eq_none_iff.1 hop
  refine ⟨haxis, hne, ?_, ha.axis_end, ?_, hsolid.1.of_isPrefix hstart, hstarts,
    hsolid.2.of_suffix hend, hw ▸ snug_withoutBlanks t, hgap⟩
  · simp only [List.forall_mem_cons, List.not_mem_nil, false_implies, implies_true, and_true]
    refine ⟨⟨fun hi => hoperator .or ?_, fun hi => hoperator .or ?_⟩,
      ⟨fun hi => hoperator .and ?_, fun hi => hoperator .and ?_⟩,
      Text.not_infix_of_clear Attribute.separator_ne_nil (Text.clear_of_cut? hcut),
      (Text.cut?_eq_none_iff Attribute.separator_ne_nil).1 hname⟩
    · exact hi.trans hstart.isInfix
    · exact hi.trans hend.isInfix
    · exact hi.trans hstart.isInfix
    · exact hi.trans hend.isInfix
  · intro hopen
    obtain ⟨c, w, hcons⟩ := List.exists_cons_of_ne_nil haxis
    refine hhead ?_
    unfold Attribute.text
    rw [hcons] at hopen ⊢
    exact hopen

end Expression

/-! ## Every expressible attribute is read -/

namespace Attribute

variable {a : Attribute} {rest : Text}

/-! The blank after the first of three colons keeps the last pass from finding the separator there,
and goes in that pass. -/

/-- The axis and the rest of the name around three colons, with a blank after the first. -/
def apart (axis rest : Text) : Text :=
  axis ++ [.char ':', .char ' '] ++ separator ++ rest

theorem apart_eq (axis rest : Text) :
    apart axis rest = axis ++ [.char ':'] ++ .char ' ' :: (separator ++ rest) := by
  simp [apart]

theorem text_eq_of_name (hname : a.name = .char ':' :: rest) :
    a.text = a.axis ++ [.char ':'] ++ (separator ++ rest) := by
  unfold text
  rw [hname]
  simp [separator]

theorem snug_apart {c : CodePoint} (hc : c = .char '(' ∨ c = .char ')') (h : Snug c a.text)
    (hname : a.name = .char ':' :: rest) : Snug c (apart a.axis rest) := by
  rw [apart_eq]
  rw [text_eq_of_name hname] at h
  refine h.insert ?_ (by decide) ?_ ?_
  · rcases hc with rfl | rfl <;> decide
  · rw [List.getLast?_concat]
    rcases hc with rfl | rfl <;> decide
  · rcases hc with rfl | rfl <;> simp [separator]

namespace Expressible

theorem no_operator (h : a.Expressible) (op : Operator) :
    ¬ op.mark.text <:+: a.axis ∧ ¬ op.mark.text <:+: a.name := by
  cases op with
  | or => exact h.no_mark orMark (by simp)
  | and => exact h.no_mark andMark (by simp)

/-- No operator starts inside the text of the attribute, unless the name ends with a character of
it and the next one follows. -/
theorem clear_operator (h : a.Expressible) {op : Operator} {t : Text}
    (hend : a.name.getLast? = some op.mark.char → t.head? ≠ some op.mark.char) :
    Text.Clear op.mark.text a.text t := by
  have habsent := h.no_operator op
  have hne : Mark.separator ≠ op.mark := by cases op <;> decide
  have haxis : Text.Clear op.mark.text a.axis (separator ++ (a.name ++ t)) := by
    refine clear_of_absent habsent.1 (.inr (.inr fun hhead => hne ?_))
    exact Mark.char_injective (Option.some.inj hhead)
  have hname : Text.Clear op.mark.text a.name t := by
    refine clear_of_absent habsent.2 (.inr ?_)
    by_cases hlast : a.name.getLast? = some op.mark.char
    · exact .inr (hend hlast)
    · exact .inl hlast
  unfold text
  rw [Text.clear_append, Text.clear_append]
  exact ⟨⟨haxis, clear_mark hne _⟩, hname⟩

theorem operatorPosition?_text (h : a.Expressible) : operatorPosition? a.text = none := by
  refine operatorPosition?_eq_none_iff.2 fun op => ?_
  have hclear : Text.Clear op.mark.text a.text [] := h.clear_operator fun _ hhead => by cases hhead
  exact Text.not_infix_of_clear op.mark.text_ne_nil hclear

theorem cut?_text (h : a.Expressible) : Text.cut? separator a.text = some (a.axis, a.name) := by
  obtain ⟨haxis, -⟩ := h.no_mark separator (by simp)
  exact Text.cut?_of_clear separator_ne_nil
    (Text.clear_of_double haxis fun hlast => absurd hlast h.axis_end)

theorem representable (h : a.Expressible) : a.Representable := by
  obtain ⟨-, hname⟩ := h.no_mark separator (by simp)
  exact ofText?_eq_some_iff.2 ⟨h.cut?_text, (Text.cut?_eq_none_iff separator_ne_nil).2 hname,
    h.axis_ne_nil, h.name_ne_nil⟩

theorem head?_text_append (h : a.Expressible) (t : Text) :
    (a.text ++ t).head? ≠ some (.char '(') := by
  obtain ⟨c, w, hcons⟩ := List.exists_cons_of_ne_nil h.axis_ne_nil
  intro hhead
  refine h.axis_start ?_
  unfold text at hhead
  rw [hcons] at hhead ⊢
  exact hhead

theorem head?_text (h : a.Expressible) : a.text.head? ≠ some (.char '(') := by
  have hhead := h.head?_text_append []
  rwa [List.append_nil] at hhead

theorem text_ne_nil (h : a.Expressible) : a.text ≠ [] := by
  unfold text
  simp [h.axis_ne_nil]

theorem startsSolid_text (h : a.Expressible) : a.text.StartsSolid := by
  unfold text
  rw [List.append_assoc]
  exact Text.startsSolid_append h.axis_startsSolid fun hnil => absurd hnil h.axis_ne_nil

theorem endsSolid_text (h : a.Expressible) : a.text.EndsSolid :=
  Text.endsSolid_append h.name_endsSolid fun hnil => absurd hnil h.name_ne_nil

theorem solid_text (h : a.Expressible) : a.text.Solid :=
  Text.solid_of_ends h.text_ne_nil h.startsSolid_text h.endsSolid_text

theorem getLast?_text (h : a.Expressible) : a.text.getLast? = a.name.getLast? := by
  obtain ⟨w, c, hname⟩ := (List.eq_nil_or_concat' a.name).resolve_left h.name_ne_nil
  unfold text
  rw [List.getLast?_append, hname, List.getLast?_concat]
  rfl

/-- The passes leave out the blanks at the end of the axis and nothing else. -/
theorem withoutBlanks_text (h : a.Expressible) :
    withoutBlanks a.text = a.axis.trimEnd ++ separator ++ a.name := by
  obtain ⟨-, hname⟩ := h.no_mark separator (by simp)
  have hcut : Text.cut? Mark.separator.text a.text = some (a.axis, a.name) := h.cut?_text
  have habsent : ¬ Mark.separator.text <:+: a.name := hname
  rw [withoutBlanks_of_snug h.startsSolid_text h.endsSolid_text h.snug.1 h.snug.2
    h.operatorPosition?_text, tighten_of_cut? hcut, tighten_of_absent habsent,
    Text.trim_eq_self h.name_startsSolid h.name_endsSolid, Text.trim,
    h.axis_startsSolid.trimStart_eq]
  rfl

theorem withoutBlanks_text_iff (h : a.Expressible) :
    withoutBlanks a.text = a.text ↔ a.axis.EndsSolid := by
  rw [h.withoutBlanks_text, Text.endsSolid_iff_trimEnd_eq]
  unfold text
  rw [List.append_left_inj, List.append_left_inj]

theorem operatorPosition?_apart (h : a.Expressible) (hname : a.name = .char ':' :: rest) :
    operatorPosition? (apart a.axis rest) = none := by
  refine operatorPosition?_eq_none_iff.2 fun op => ?_
  obtain ⟨haxis, habsent⟩ := h.no_operator op
  have hrest : ¬ op.mark.text <:+: rest := fun hi =>
    habsent (hi.trans ⟨[.char ':'], [], by rw [hname, List.append_nil]; rfl⟩)
  have hcolons : op.mark.char ∉ [.char ':', .char ' '] ++ separator := by cases op <;> decide
  have hclear :
      Text.Clear op.mark.text (a.axis ++ ([.char ':', .char ' '] ++ separator ++ rest)) [] := by
    refine Text.clear_append.2 ⟨clear_of_absent haxis (.inr (.inr fun hhead => ?_)),
      Text.clear_append.2 ⟨clear_of_char_not_mem hcolons _,
        clear_of_absent hrest (.inr (.inr nofun))⟩⟩
    exact hcolons (Option.some.inj hhead ▸ List.mem_cons_self)
  have hself : apart a.axis rest = a.axis ++ ([.char ':', .char ' '] ++ separator ++ rest) := by
    simp [apart]
  rw [hself]
  exact Text.not_infix_of_clear op.mark.text_ne_nil hclear

theorem cut?_apart (h : a.Expressible) :
    Text.cut? separator (apart a.axis rest) = some (a.axis ++ [.char ':', .char ' '], rest) := by
  obtain ⟨haxis, -⟩ := h.no_mark separator (by simp)
  refine Text.cut?_of_clear separator_ne_nil (Text.clear_append.2
    ⟨Text.clear_of_double haxis fun hlast => absurd hlast h.axis_end, ?_⟩)
  simp [Text.Clear, separator]

theorem withoutBlanks_apart (h : a.Expressible) (hname : a.name = .char ':' :: rest)
    (hrest : rest.StartsSolid) : withoutBlanks (apart a.axis rest) = a.text := by
  have hsuffix : rest <:+ a.name := ⟨[.char ':'], hname.symm⟩
  have hends : rest.EndsSolid := h.name_endsSolid.of_suffix hsuffix
  have hstart : (apart a.axis rest).StartsSolid := by
    rw [apart_eq, List.append_assoc]
    exact Text.startsSolid_append h.axis_startsSolid fun hnil => absurd hnil h.axis_ne_nil
  have hend : (apart a.axis rest).EndsSolid :=
    Text.endsSolid_append hends fun _ => Text.endsSolid_append (by decide) nofun
  have hcut : Text.cut? Mark.separator.text (apart a.axis rest) =
      some (a.axis ++ [.char ':', .char ' '], rest) := h.cut?_apart
  have hbefore : Text.trim (a.axis ++ [.char ':', .char ' ']) = a.axis ++ [.char ':'] := by
    have hcolon : Text.EndsSolid (a.axis ++ [.char ':']) := Text.endsSolid_append (by decide) nofun
    have hself : a.axis ++ [.char ':', .char ' '] = a.axis ++ [.char ':'] ++ [.char ' '] := by simp
    have hblank : Text.trimEnd [.char ' '] = [] := by decide
    rw [hself, hcolon.trim_append (by simp), Text.trim_eq_self
      (Text.startsSolid_append h.axis_startsSolid fun _ => by decide) hcolon, hblank,
      List.append_nil]
  have hafter : tighten Mark.separator.text rest = rest := by
    have habsent : ¬ Mark.separator.text <:+: rest := fun hi =>
      (h.no_mark separator (by simp)).2 (hi.trans hsuffix.isInfix)
    rw [tighten_of_absent habsent, Text.trim_eq_self hrest hends]
  rw [withoutBlanks_of_snug hstart hend (snug_apart (.inl rfl) h.snug.1 hname)
    (snug_apart (.inr rfl) h.snug.2 hname) (h.operatorPosition?_apart hname),
    tighten_of_cut? hcut, hbefore, hafter, text_eq_of_name hname, List.append_assoc]
  rfl

theorem exists_shape (h : a.Expressible) : ∃ t, shape t = .ok (.literal a) := by
  have hread : ∀ t, withoutBlanks t = a.text → shape t = .ok (.literal a) := by
    intro t ht
    exact shape_literal_iff.2 ⟨ht, h.head?_text, h.operatorPosition?_text, h.representable⟩
  rcases h.axis_endsSolid with he | ⟨rest, hname, hrest⟩
  · exact ⟨_, hread _ (h.withoutBlanks_text_iff.2 he)⟩
  · exact ⟨_, hread _ (h.withoutBlanks_apart hname hrest)⟩

/-- The words are plain but for a parenthesis or blanks at the end of the axis. -/
theorem plain_iff (h : a.Expressible) :
    Plain a.axis ∧ Plain a.name ↔ .char '(' ∉ a.text ∧ .char ')' ∉ a.text ∧ a.axis.EndsSolid := by
  constructor
  · rintro ⟨haxis, hname⟩
    have habsent : ∀ m : Mark, m.text = [m.char] → m.char ∉ a.text := by
      intro m hm
      have hsep : m.char ∉ separator := by
        cases m with
        | opening => decide
        | closing => decide
        | or => cases hm
        | and => cases hm
        | separator => cases hm
      simp only [text, List.mem_append, not_or]
      exact ⟨⟨haxis.not_mem hm, hsep⟩, hname.not_mem hm⟩
    exact ⟨habsent .opening rfl, habsent .closing rfl, haxis.trim_eq ▸ Text.endsSolid_trimEnd _⟩
  · rintro ⟨hopen, hclose, he⟩
    have hmarks : ∀ w, w <:+: a.text → ∀ m ∈ [openMark, closeMark], ¬ m <:+: w := by
      intro w hw m hm hi
      rcases List.mem_pair.1 hm with rfl | rfl
      · exact hopen ((hi.trans hw).subset List.mem_cons_self)
      · exact hclose ((hi.trans hw).subset List.mem_cons_self)
    have haxis : a.axis <:+: a.text := ⟨[], separator ++ a.name, by simp [text]⟩
    have hname : a.name <:+: a.text := ⟨a.axis ++ separator, [], by simp [text]⟩
    refine ⟨⟨h.axis_ne_nil, Text.trim_eq_self h.axis_startsSolid he, fun m hm => ?_⟩,
      h.name_ne_nil, Text.trim_eq_self h.name_startsSolid h.name_endsSolid, fun m hm => ?_⟩
    · rcases List.mem_append.1 (show m ∈ [openMark, closeMark] ++ _ from hm) with hm | hm
      · exact hmarks _ haxis m hm
      · exact (h.no_mark m hm).1
    · rcases List.mem_append.1 (show m ∈ [openMark, closeMark] ++ _ from hm) with hm | hm
      · exact hmarks _ hname m hm
      · exact (h.no_mark m hm).2

end Expressible

end Attribute

namespace Expression

@[simp] theorem literals_tree (op : Operator) (l r : AccessPolicy) :
    (op.tree l r).literals = l.literals ++ r.literals := by
  cases op <;> rfl

theorem forall_mem_literals_tree {P : Attribute → Prop} {op : Operator} {l r : AccessPolicy} :
    (∀ a ∈ (op.tree l r).literals, P a) ↔
      (∀ a ∈ l.literals, P a) ∧ ∀ a ∈ r.literals, P a := by
  rw [literals_tree]
  exact List.forall_mem_append

theorem expressible_of_parse {t : Text} {p : AccessPolicy} (h : parse t = .ok p) :
    ∀ a ∈ p.literals, a.Expressible := by
  refine parse_induction (P := fun _ p => ∀ a ∈ p.literals, a.Expressible) ?_ ?_ ?_ h
  · intro t a hs b hb
    rw [List.mem_singleton.1 hb]
    exact expressible_of_shape hs
  · intro _ _ _ _ _ ih
    exact ih
  · intro t left right op l r _ _ _ ihl ihr
    exact forall_mem_literals_tree.2 ⟨ihl, ihr⟩

/-- The literals stand in the text. -/
theorem text_subset_of_parse {t : Text} {p : AccessPolicy} (h : parse t = .ok p) :
    ∀ a ∈ p.literals, a.text ⊆ t := by
  refine parse_induction (P := fun t p => ∀ a ∈ p.literals, a.text ⊆ t) ?_ ?_ ?_ h
  · intro t a hs b hb
    rw [List.mem_singleton.1 hb]
    exact inside_of_shape hs
  · intro t inner p hs _ ih a ha
    exact List.Subset.trans (ih a ha) (inside_of_shape hs)
  · intro t left right op l r hs _ _ ihl ihr
    obtain ⟨hleft, -, hright⟩ := inside_of_shape hs
    exact forall_mem_literals_tree.2 ⟨fun a ha => List.Subset.trans (ihl a ha) hleft,
      fun a ha => List.Subset.trans (ihr a ha) hright⟩

/-- **The literals of expressions.** The attributes that a reading of some text can have among its
literals, with the bound on the nesting or without, are the expressible ones; the axis and the name
of such an attribute are plain words if no parenthesis stands in them and no blank at the end of
the axis. -/
theorem mem_literals_parse_iff (a : Attribute) :
    ((∃ t p, parse t = .ok p ∧ a ∈ p.literals) ↔ a.Expressible) ∧
    ((∃ t p, AccessPolicy.ofExpression t = .ok p ∧ a ∈ p.literals) ↔ a.Expressible) ∧
    ((∃ t p, AccessPolicy.ofExpression t = .ok p ∧ a ∈ p.literals) ∧ Plain a.axis ∧ Plain a.name ↔
      a.Expressible ∧ .char '(' ∉ a.text ∧ .char ')' ∉ a.text ∧ a.axis.EndsSolid) := by
  have hbound : (∃ t p, AccessPolicy.ofExpression t = .ok p ∧ a ∈ p.literals) ↔
      a.Expressible := by
    constructor
    · rintro ⟨t, p, hp, ha⟩
      exact expressible_of_parse (parse_of_parseWithin hp) a ha
    · intro h
      obtain ⟨t, ht⟩ := h.exists_shape
      exact ⟨t, .attr a, parseWithin_literal ht _, List.mem_singleton_self a⟩
  refine ⟨⟨?_, fun h => ?_⟩, hbound, ?_⟩
  · rintro ⟨t, p, hp, ha⟩
    exact expressible_of_parse hp a ha
  · obtain ⟨t, ht⟩ := h.exists_shape
    exact ⟨t, .attr a, parse_literal ht, List.mem_singleton_self a⟩
  · rw [hbound]
    exact and_congr_right fun h => h.plain_iff

/-- A parenthesis that no group opened stays in the name, and blanks that stood in front of a colon
stay in the axis. -/
theorem literals_parse_not_plain :
    AccessPolicy.ofExpression "A::b)".toText = .ok (.attr ⟨"A".toText, "b)".toText⟩) ∧
    AccessPolicy.ofExpression "A : ::b".toText = .ok (.attr ⟨"A ".toText, ":b".toText⟩) ∧
    ¬ Plain "b)".toText ∧ ¬ Plain "A ".toText := by
  have hname : shape "A::b)".toText = .ok (.literal ⟨"A".toText, "b)".toText⟩) := rfl
  have haxis : shape "A : ::b".toText = .ok (.literal ⟨"A ".toText, ":b".toText⟩) := rfl
  exact ⟨parseWithin_literal hname _, parseWithin_literal haxis _, by decide, by decide⟩

end Expression

end AttributeAccess
