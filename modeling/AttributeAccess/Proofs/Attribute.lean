import AttributeAccess.Fault
import AttributeAccess.Proofs.Text.Search
import AttributeAccess.Proofs.Text.WellFormed

/-!
# Attributes and their texts

A text that is read as an attribute is the text of that attribute (`text_of_ofText?`). The converse
fails: the text does not tell a colon at the end of the axis from the separator behind it, so an
attribute may be read back as another one or not at all. `Representable` attributes are read back,
hence no two of them share a text; `Writable` ones share theirs with a representable one. Only a
colon at the end of the axis makes the difference (`Writable.representable`). Which attributes are
representable shows in their two parts (`representable_iff`).

Texts and attributes are in a total order each, so a sorted list tells which attributes it has and
how often, and nothing else (`sorted_eq_sorted_iff`).
-/

namespace AttributeAccess

namespace Attribute

theorem separator_ne_nil : separator ≠ [] :=
  List.cons_ne_nil _ _

/-- Reading cuts at the first separator; none may follow it. -/
theorem ofText?_eq_some_iff {t : Text} {a : Attribute} :
    ofText? t = some a ↔
      Text.cut? separator t = some (a.axis, a.name) ∧ Text.cut? separator a.name = none ∧
        a.axis ≠ [] ∧ a.name ≠ [] := by
  unfold ofText?
  cases hcut : Text.cut? separator t with
  | none => simp [Text.splitOn_of_cut?_eq_none hcut]
  | some parts =>
    obtain ⟨axis, name⟩ := parts
    rw [Text.splitOn_of_cut?_eq_some separator_ne_nil hcut]
    cases hname : Text.cut? separator name with
    | none =>
      rw [Text.splitOn_of_cut?_eq_none hname]
      show (if axis.isEmpty || name.isEmpty then none else some (⟨axis, name⟩ : Attribute)) = _ ↔ _
      constructor
      · intro h
        split at h
        · cases h
        · next hne =>
          cases h
          simp only [Bool.or_eq_true, List.isEmpty_iff, not_or] at hne
          exact ⟨rfl, hname, hne⟩
      · rintro ⟨heq, -, haxis, hne⟩
        cases heq
        simp [haxis, hne]
    | some more =>
      obtain ⟨first, rest⟩ := more
      rw [Text.splitOn_of_cut?_eq_some separator_ne_nil hname]
      obtain ⟨part, parts, hparts⟩ :=
        List.exists_cons_of_ne_nil (Text.splitTimes_ne_nil separator rest.length rest)
      have hsplit : Text.splitOn separator rest = part :: parts := hparts
      rw [hsplit]
      simp only [reduceCtorEq, Option.some.injEq, Prod.mk.injEq, false_iff]
      rintro ⟨⟨-, rfl⟩, hnone, -⟩
      rw [hname] at hnone
      cases hnone

theorem text_of_ofText? {t : Text} {a : Attribute} (h : ofText? t = some a) : a.text = t :=
  (Text.eq_append_of_cut? (ofText?_eq_some_iff.1 h).1).symm

theorem ofText?_text {a : Attribute} (haxis : a.axis ≠ []) (hname : a.name ≠ [])
    (hclear : Text.Clear separator a.axis (separator ++ a.name))
    (hclear' : Text.Clear separator a.name []) : ofText? a.text = some a := by
  exact ofText?_eq_some_iff.2 ⟨Text.cut?_of_clear separator_ne_nil hclear,
    Text.cut?_eq_none_of_clear hclear', haxis, hname⟩

/-! ## Attributes that are read back -/

/-- The attribute is read back from its text. -/
def Representable (a : Attribute) : Prop :=
  ofText? a.text = some a

/-- Some attribute, this or another one, is read from the text. -/
def Writable (a : Attribute) : Prop :=
  (ofText? a.text).isSome = true

instance (a : Attribute) : Decidable a.Representable :=
  inferInstanceAs (Decidable (_ = _))

instance (a : Attribute) : Decidable a.Writable :=
  inferInstanceAs (Decidable (_ = _))

theorem Representable.writable {a : Attribute} (h : a.Representable) : a.Writable := by
  unfold Writable
  rw [h]
  rfl

/-- Whatever is read from a text is read back. -/
theorem representable_of_ofText? {t : Text} {a : Attribute} (h : ofText? t = some a) :
    a.Representable := by
  unfold Representable
  rw [text_of_ofText? h, h]

theorem Representable.eq_of_text_eq {a b : Attribute} (ha : a.Representable)
    (hb : b.Representable) (h : a.text = b.text) : a = b := by
  unfold Representable at ha hb
  rw [h, hb] at ha
  exact (Option.some.inj ha).symm

/-- Another attribute is read only where the axis ends with a colon. -/
theorem Writable.representable {a : Attribute} (h : a.Writable)
    (hend : a.axis.getLast? ≠ some (.char ':')) : a.Representable := by
  obtain ⟨⟨axis, name⟩, hb⟩ := Option.isSome_iff_exists.1 h
  obtain ⟨hcut, hnone, -, -⟩ := ofText?_eq_some_iff.1 hb
  cases haxis : Text.cut? separator a.axis with
  | some parts =>
    -- a separator inside the axis is found first, and the one behind the axis makes a third part
    obtain ⟨first, more⟩ := parts
    have hfirst := Text.clear_of_cut? haxis
    have hclear : Text.Clear separator first (separator ++ (more ++ separator ++ a.name)) :=
      Text.clear_of_double (Text.not_infix_of_clear separator_ne_nil hfirst)
        fun hlast => absurd hlast (Text.getLast?_ne_of_clear hfirst)
    have htext : a.text = first ++ separator ++ (more ++ separator ++ a.name) := by
      simp only [text, Text.eq_append_of_cut? haxis, List.append_assoc]
    rw [htext, Text.cut?_of_clear separator_ne_nil hclear, Option.some.injEq, Prod.mk.injEq] at hcut
    rw [← hcut.2, Text.cut?_eq_none_iff separator_ne_nil] at hnone
    exact absurd ⟨more, a.name, rfl⟩ hnone
  | none =>
    have hin := (Text.cut?_eq_none_iff separator_ne_nil).1 haxis
    have hclear : Text.Clear separator a.axis (separator ++ a.name) :=
      Text.clear_of_double hin fun hlast => absurd hlast hend
    have hsame : some (a.axis, a.name) = some (axis, name) :=
      (Text.cut?_of_clear separator_ne_nil hclear).symm.trans hcut
    cases hsame
    exact hb

/-- The separator that is found first starts no later than the one that was written. -/
theorem Representable.axis_end {a : Attribute} (h : a.Representable) :
    a.axis.getLast? ≠ some (.char ':') := by
  obtain ⟨hcut, -, -, -⟩ := ofText?_eq_some_iff.1 h
  exact Text.getLast?_ne_of_clear (Text.clear_of_cut? hcut)

/-- Among the attributes whose axis does not end with a colon a text has one reading only. -/
theorem Representable.eq_of_axis_end {a b : Attribute} (ha : a.Representable)
    (h : b.text = a.text) (hend : b.axis.getLast? ≠ some (.char ':')) : b = a := by
  have hwritable : b.Writable := by
    unfold Writable
    rw [h]
    exact ha.writable
  exact (hwritable.representable hend).eq_of_text_eq ha h

/-- The axis loses its colon to the name. -/
example : ofText? (text ⟨"A:".toText, "b".toText⟩) = some ⟨"A".toText, ":b".toText⟩ := by decide

theorem representable_iff {a : Attribute} :
    a.Representable ↔
      a.axis ≠ [] ∧ a.name ≠ [] ∧ ¬ separator <:+: a.axis ∧ ¬ separator <:+: a.name ∧
        a.axis.getLast? ≠ some (.char ':') := by
  constructor
  · intro h
    obtain ⟨hcut, hname, haxis_ne, hname_ne⟩ := ofText?_eq_some_iff.1 h
    have haxis := Text.not_infix_of_clear separator_ne_nil (Text.clear_of_cut? hcut)
    exact ⟨haxis_ne, hname_ne, haxis, (Text.cut?_eq_none_iff separator_ne_nil).1 hname, h.axis_end⟩
  · rintro ⟨haxis_ne, hname_ne, haxis, hname, hend⟩
    exact ofText?_text haxis_ne hname_ne
      (Text.clear_of_double haxis fun hlast => absurd hlast hend)
      (Text.clear_of_double hname fun _ => nofun)

theorem ofText_eq_ok_iff {s : Text} {a : Attribute} :
    ofText s = .ok a ↔ s = a.text ∧ a.Representable := by
  unfold ofText
  cases h : ofText? s with
  | none =>
    simp only [reduceCtorEq, false_iff]
    rintro ⟨rfl, ha⟩
    rw [ha] at h
    cases h
  | some b =>
    rw [Except.ok.injEq]
    constructor
    · rintro rfl
      exact ⟨(text_of_ofText? h).symm, representable_of_ofText? h⟩
    · rintro ⟨rfl, ha⟩
      rw [ha] at h
      exact (Option.some.inj h).symm

/-- **The text form of attributes.** An accepted text is the text of the attribute read from it. An
attribute is read from its own text exactly if neither part is empty or holds a separator and the
axis does not end with a colon. So no two attributes that can be read share a text. -/
theorem text_form_exact :
    (∀ t a, ofText t = .ok a → a.text = t) ∧
      (∀ a : Attribute, ofText a.text = .ok a ↔
        a.axis ≠ [] ∧ a.name ≠ [] ∧ ¬ separator <:+: a.axis ∧ ¬ separator <:+: a.name ∧
          a.axis.getLast? ≠ some (.char ':')) ∧
      ∀ t u a b, ofText t = .ok a → ofText u = .ok b → a.text = b.text → a = b := by
  refine ⟨fun t a h => ?_, fun a => ?_, fun t u a b ha hb htext => ?_⟩
  · exact (ofText_eq_ok_iff.1 h).1.symm
  · rw [ofText_eq_ok_iff, representable_iff]
    exact and_iff_right rfl
  · exact (ofText_eq_ok_iff.1 ha).2.eq_of_text_eq (ofText_eq_ok_iff.1 hb).2 htext

/-- Of the two attributes with this text only the one with the shorter axis is read from it. -/
theorem text_form_exact_colons :
    let t : Text := "A:::b".toText
    let a : Attribute := ⟨"A".toText, ":b".toText⟩
    let b : Attribute := ⟨"A:".toText, "b".toText⟩
    ofText t = .ok a ∧ a.text = t ∧ ofText a.text = .ok a ∧ b.text = a.text ∧
      ofText b.text ≠ .ok b := by
  intro t a b
  obtain ⟨hread, hback, hinj⟩ := text_form_exact
  have ha : ofText a.text = .ok a := (hback a).2 (by decide)
  have hb : ofText b.text ≠ .ok b := by
    intro h
    exact absurd (hinj _ _ a b ha h rfl) (by decide)
  exact ⟨ha, hread t a ha, ha, rfl, hb⟩

end Attribute

/-! ## Order -/

namespace Text

theorem notAfter_iff {a b : Text} : a.notAfter b = true ↔ ¬ b < a := by
  simp [notAfter]

theorem notAfter_refl (a : Text) : a.notAfter a = true :=
  notAfter_iff.2 (List.lt_irrefl a)

theorem notAfter_trans {a b c : Text} (hab : a.notAfter b = true) (hbc : b.notAfter c = true) :
    a.notAfter c = true :=
  notAfter_iff.2 (List.le_trans (notAfter_iff.1 hab) (notAfter_iff.1 hbc))

theorem notAfter_total (a b : Text) : a.notAfter b = true ∨ b.notAfter a = true := by
  rw [notAfter_iff, notAfter_iff]
  exact List.le_total a b

theorem notAfter_antisymm {a b : Text} (hab : a.notAfter b = true) (hba : b.notAfter a = true) :
    a = b :=
  List.le_antisymm (notAfter_iff.1 hab) (notAfter_iff.1 hba)

end Text

namespace Attribute

theorem notAfter_iff {a b : Attribute} :
    a.notAfter b = true ↔
      a.axis.notAfter b.axis = true ∧ (a.axis = b.axis → a.name.notAfter b.name = true) := by
  unfold notAfter
  by_cases h : a.axis = b.axis
  · simp [h, Text.notAfter_refl]
  · simp [h]

theorem notAfter_trans {a b c : Attribute} (hab : a.notAfter b = true)
    (hbc : b.notAfter c = true) : a.notAfter c = true := by
  rw [notAfter_iff] at hab hbc ⊢
  refine ⟨Text.notAfter_trans hab.1 hbc.1, fun h => ?_⟩
  -- the axis between them is the same one
  have haxis : a.axis = b.axis := Text.notAfter_antisymm hab.1 (h ▸ hbc.1)
  exact Text.notAfter_trans (hab.2 haxis) (hbc.2 (haxis.symm.trans h))

theorem notAfter_total (a b : Attribute) : a.notAfter b = true ∨ b.notAfter a = true := by
  rw [notAfter_iff, notAfter_iff]
  by_cases h : a.axis = b.axis
  · simpa [h, Text.notAfter_refl] using Text.notAfter_total a.name b.name
  · simpa [h, Ne.symm h] using Text.notAfter_total a.axis b.axis

theorem notAfter_antisymm {a b : Attribute} (hab : a.notAfter b = true)
    (hba : b.notAfter a = true) : a = b := by
  rw [notAfter_iff] at hab hba
  have haxis : a.axis = b.axis := Text.notAfter_antisymm hab.1 hba.1
  have hname : a.name = b.name := Text.notAfter_antisymm (hab.2 haxis) (hba.2 haxis.symm)
  cases a
  cases haxis
  cases hname
  rfl

theorem sorted_perm (as : List Attribute) : (sorted as).Perm as :=
  List.mergeSort_perm as notAfter

theorem pairwise_sorted (as : List Attribute) : (sorted as).Pairwise (notAfter · ·) :=
  @List.pairwise_mergeSort _ notAfter (fun _ _ _ => notAfter_trans)
    (fun a b => Bool.or_eq_true_iff.2 (notAfter_total a b)) as

/-- Sorting forgets the order and nothing else. -/
theorem sorted_eq_sorted_iff {as bs : List Attribute} : sorted as = sorted bs ↔ as.Perm bs := by
  constructor
  · intro h
    exact (sorted_perm as).symm.trans (h ▸ sorted_perm bs)
  · intro h
    exact List.Perm.eq_of_pairwise (fun _ _ _ _ => notAfter_antisymm) (pairwise_sorted as)
      (pairwise_sorted bs) ((sorted_perm as).trans (h.trans (sorted_perm bs).symm))

end Attribute

end AttributeAccess
