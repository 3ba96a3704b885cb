import AttributeAccess.Proofs.AccessPolicy.NormalForm

/-!
# How combinations are listed

Listing the combinations of a policy does two things, and neither depends on the other. The
literals are looked up from left to right, and the first one that is refused ends it
(`Axes.Refuses`). Then what stands in for each literal is multiplied out, whatever the axes are
(`spread`). `combinations_eq` says that this is all. So listing fails exactly with the fault of the
leftmost literal that is refused (`combinations_error_iff_refused`), and the brackets of a policy
show neither in its list nor in its fault (`combinations_rebracketed`).
-/

namespace AttributeAccess

namespace Axes

/-- Why a literal has no combinations: its axis is not there or, where hierarchies are followed,
its axis is ranked and does not list its name. -/
inductive Refuses (axes : Axes) (follow : Bool) (a : Attribute) : Fault → Prop
  | axis (h : axes.get? a.axis = none) : Refuses axes follow a (.invalidAxis a.axis)
  | name {record : AxisRecord} (hfollow : follow = true) (h : axes.get? a.axis = some record)
      (hranked : record.hierarchical = true) (hname : a.name ∉ record.names) :
      Refuses axes follow a (.attributeNotFound a)

/-- The fault of a literal that is refused. -/
def fault? (axes : Axes) (follow : Bool) (a : Attribute) : Option Fault :=
  match axes.get? a.axis with
  | none => some (.invalidAxis a.axis)
  | some record =>
    if (follow && record.hierarchical) ∧ a.name ∉ record.names then some (.attributeNotFound a)
    else none

/-- What stands in for a literal: the attribute, then its lower ranks if they are followed. -/
def standIns (axes : Axes) (follow : Bool) (a : Attribute) : List Attribute :=
  a ::
    match axes.get? a.axis with
    | none => []
    | some record =>
      if follow && record.hierarchical then (record.below a.name).map (⟨a.axis, ·⟩) else []

variable {axes : Axes} {follow : Bool} {a : Attribute} {f : Fault}

theorem fault?_eq_some_iff : axes.fault? follow a = some f ↔ axes.Refuses follow a f := by
  unfold fault?
  constructor
  · intro h
    split at h
    · next haxis =>
      cases h
      exact .axis haxis
    · next record haxis =>
      split at h
      · next hcond =>
        cases h
        rw [Bool.and_eq_true] at hcond
        exact .name hcond.1.1 haxis hcond.1.2 hcond.2
      · cases h
  · rintro (haxis | ⟨rfl, haxis, hranked, hname⟩)
    · rw [haxis]
    · simp only [haxis, hranked, Bool.and_self, hname, not_false_eq_true, and_self, if_true]

theorem fault?_eq_none_iff : axes.fault? follow a = none ↔ ∀ f, ¬ axes.Refuses follow a f := by
  simp only [Option.eq_none_iff_forall_ne_some, ne_eq, fault?_eq_some_iff]

theorem contains_of_fault?_eq_none (h : axes.fault? follow a = none) :
    axes.contains a.axis = true := by
  unfold fault? at h
  cases haxis : axes.get? a.axis with
  | none => simp [haxis] at h
  | some record => exact OrderedMap.contains_iff.2 ⟨record, haxis⟩

/-! Without hierarchies only the axis of a literal matters, and nothing else stands in for it. -/

theorem fault?_false_eq_none_iff :
    axes.fault? false a = none ↔ axes.contains a.axis = true := by
  refine ⟨contains_of_fault?_eq_none, fun h => ?_⟩
  obtain ⟨record, haxis⟩ := OrderedMap.contains_iff.1 h
  simp [fault?, haxis]

theorem standIns_false : axes.standIns false = fun a => [a] := by
  funext a
  unfold standIns
  cases axes.get? a.axis <;> rfl

end Axes

namespace AccessPolicy

/-! ## Products -/

section
variable {ls rs ts : List Combination}

theorem product_append_left : product (ls ++ rs) ts = product ls ts ++ product rs ts :=
  List.flatMap_append

theorem product_assoc : product (product ls rs) ts = product ls (product rs ts) := by
  simp only [product, List.flatMap_assoc, List.flatMap_map, List.map_flatMap, List.map_map,
    Function.comp_def, List.append_assoc]

@[simp] theorem product_unit_left : product [[]] rs = rs := by
  simp [product]

@[simp] theorem product_unit_right : product ls [[]] = ls := by
  simp [product]

end

/-- One attribute of each list, in lexicographic order: the first list varies slowest. -/
def choices : List (List Attribute) → List Combination
  | [] => [[]]
  | as :: rest => as.flatMap fun a => (choices rest).map (a :: ·)

theorem choices_cons (as : List Attribute) (rest : List (List Attribute)) :
    choices (as :: rest) = product (as.map ([·])) (choices rest) := by
  simp [choices, product, List.flatMap_map]

theorem choices_append (ls rs : List (List Attribute)) :
    choices (ls ++ rs) = product (choices ls) (choices rs) := by
  induction ls with
  | nil => exact product_unit_left.symm
  | cons as ls ih => rw [List.cons_append, choices_cons, ih, ← product_assoc, ← choices_cons]

/-! ## Multiplying out -/

/-- The combinations of a policy when `standIns` says what stands in for a literal. -/
def spread (standIns : Attribute → List Attribute) : AccessPolicy → List Combination
  | all => [[]]
  | attr a => (standIns a).map ([·])
  | and l r => product (l.spread standIns) (r.spread standIns)
  | or l r => l.spread standIns ++ r.spread standIns

theorem literalCombinations_eq (axes : Axes) (follow : Bool) (a : Attribute) :
    literalCombinations axes follow a =
      (axes.fault? follow a).elim (.ok ((axes.standIns follow a).map ([·]))) .error := by
  unfold literalCombinations Axes.fault? Axes.standIns
  cases axes.get? a.axis with
  | none => rfl
  | some record =>
    cases hf : follow && record.hierarchical with
    | false => simp [hf]
    | true => by_cases hn : a.name ∈ record.names <;> simp [hf, hn]

/-- The fault of the left operand comes first. -/
theorem combine_elim (x y : Option Fault) (ls rs : List Combination)
    (combine : List Combination → List Combination → List Combination) :
    ((x.elim (.ok ls) .error : Except Fault _) >>= fun ls =>
      (y.elim (.ok rs) .error : Except Fault _) >>= fun rs => .ok (combine ls rs)) =
        (x.or y).elim (.ok (combine ls rs)) .error := by
  cases x with
  | some f => rfl
  | none => cases y <;> rfl

/-- Listing stops at the leftmost refused literal, else it multiplies out. -/
theorem combinations_eq (axes : Axes) (follow : Bool) (t : AccessPolicy) :
    t.combinations axes follow =
      (t.literals.findSome? (axes.fault? follow)).elim
        (.ok (t.spread (axes.standIns follow))) .error := by
  induction t with
  | all => rfl
  | attr a =>
    rw [literals, List.findSome?_singleton]
    exact literalCombinations_eq axes follow a
  | and l r ihl ihr =>
    rw [combinations, ihl, ihr, literals, List.findSome?_append]
    exact combine_elim ..
  | or l r ihl ihr =>
    rw [combinations, ihl, ihr, literals, List.findSome?_append]
    exact combine_elim ..

section
variable {axes : Axes} {follow : Bool} {t : AccessPolicy}

theorem combinations_eq_ok_iff {cs : List Combination} :
    t.combinations axes follow = .ok cs ↔
      (∀ a ∈ t.literals, axes.fault? follow a = none) ∧ t.spread (axes.standIns follow) = cs := by
  rw [combinations_eq, ← List.findSome?_eq_none_iff]
  cases t.literals.findSome? (axes.fault? follow) <;> simp

theorem combinations_eq_error_iff {f : Fault} :
    t.combinations axes follow = .error f ↔
      t.literals.findSome? (axes.fault? follow) = some f := by
  rw [combinations_eq]
  cases t.literals.findSome? (axes.fault? follow) <;> simp

end

/-! ## Faults -/

/-- **Listing fails with the fault of the leftmost refused literal.** It fails exactly if some
literal of the policy is refused. Its fault is then that of the first refused one, read from left
to right, whatever stands beside it. -/
theorem combinations_error_iff_refused (axes : Axes) (follow : Bool) (t : AccessPolicy) :
    ((∃ f, t.combinations axes follow = .error f) ↔
      ∃ a ∈ t.literals, ∃ f, axes.Refuses follow a f) ∧
    ∀ f, t.combinations axes follow = .error f ↔
      ∃ before a after, t.literals = before ++ a :: after ∧ axes.Refuses follow a f ∧
        ∀ b ∈ before, ∀ g, ¬ axes.Refuses follow b g := by
  constructor
  · simp only [combinations_eq_error_iff, ← Axes.fault?_eq_some_iff, ← Option.isSome_iff_exists,
      List.findSome?_isSome_iff]
  · intro f
    rw [combinations_eq_error_iff, List.findSome?_eq_some_iff]
    simp only [Axes.fault?_eq_some_iff, Axes.fault?_eq_none_iff]

/-- Both literals are refused; without hierarchies only the right one is, whose axis is not there. -/
example :
    let axes : Axes := .ofList [("L".toText, ⟨["1".toText, "2".toText], true⟩)]
    let t : AccessPolicy :=
      .or (.and .all (.attr ⟨"L".toText, "3".toText⟩)) (.attr ⟨"M".toText, "1".toText⟩)
    t.combinations axes true = .error (.attributeNotFound ⟨"L".toText, "3".toText⟩) ∧
      t.combinations axes false = .error (.invalidAxis "M".toText) :=
  ⟨rfl, rfl⟩

/-! ## Brackets -/

/-- The policies differ only in how chains of one connective are bracketed and in operands `all` of
`and`, at any depth. -/
inductive Rebracketed : AccessPolicy → AccessPolicy → Prop
  | and_assoc (x y z : AccessPolicy) : Rebracketed ((x.and y).and z) (x.and (y.and z))
  | or_assoc (x y z : AccessPolicy) : Rebracketed ((x.or y).or z) (x.or (y.or z))
  | all_and (x : AccessPolicy) : Rebracketed (all.and x) x
  | and_all (x : AccessPolicy) : Rebracketed (x.and all) x
  | refl (x : AccessPolicy) : Rebracketed x x
  | symm {x y : AccessPolicy} : Rebracketed x y → Rebracketed y x
  | trans {x y z : AccessPolicy} : Rebracketed x y → Rebracketed y z → Rebracketed x z
  | and {l l' r r' : AccessPolicy} :
      Rebracketed l l' → Rebracketed r r' → Rebracketed (l.and r) (l'.and r')
  | or {l l' r r' : AccessPolicy} :
      Rebracketed l l' → Rebracketed r r' → Rebracketed (l.or r) (l'.or r')

namespace Rebracketed

variable {s t : AccessPolicy}

theorem literals_eq (h : Rebracketed s t) : s.literals = t.literals := by
  induction h with
  | and_assoc x y z | or_assoc x y z => exact List.append_assoc ..
  | all_and x => rfl
  | and_all x => exact List.append_nil _
  | refl x => rfl
  | symm _ ih => exact ih.symm
  | trans _ _ ih ih' => exact ih.trans ih'
  | and _ _ ihl ihr | or _ _ ihl ihr => rw [literals, literals, ihl, ihr]

theorem spread_eq (h : Rebracketed s t) (standIns : Attribute → List Attribute) :
    s.spread standIns = t.spread standIns := by
  induction h with
  | and_assoc x y z => exact product_assoc
  | or_assoc x y z => exact List.append_assoc ..
  | all_and x => exact product_unit_left
  | and_all x => exact product_unit_right
  | refl x => rfl
  | symm _ ih => exact ih.symm
  | trans _ _ ih ih' => exact ih.trans ih'
  | and _ _ ihl ihr | or _ _ ihl ihr => rw [spread, spread, ihl, ihr]

end Rebracketed

/-- A union in front of a product may be multiplied out: the literals behind it are looked up twice
then, and the list is the same. -/
theorem combinations_or_and_eq_ok_iff {axes : Axes} {follow : Bool} {x y z : AccessPolicy}
    {cs : List Combination} :
    ((x.or y).and z).combinations axes follow = .ok cs ↔
      ((x.and z).or (y.and z)).combinations axes follow = .ok cs := by
  rw [combinations_eq_ok_iff, combinations_eq_ok_iff]
  simp only [literals, List.forall_mem_append, spread, product_append_left]
  exact and_congr_left fun _ => and_and_right

/-- **Brackets do not show in the combinations.** Policies that differ in their brackets only, or
in `all` as an operand of `and`, have the same list in the same order or the same fault. Where a
union in front of a product has combinations, multiplying it out gives the same list, and has one
only then. -/
theorem combinations_rebracketed (axes : Axes) (follow : Bool) :
    (∀ s t, Rebracketed s t → s.combinations axes follow = t.combinations axes follow) ∧
    ∀ (x y z : AccessPolicy) (cs : List Combination),
      ((x.or y).and z).combinations axes follow = .ok cs ↔
        ((x.and z).or (y.and z)).combinations axes follow = .ok cs := by
  refine ⟨fun s t h => ?_, fun x y z cs => combinations_or_and_eq_ok_iff⟩
  rw [combinations_eq, combinations_eq, h.literals_eq, h.spread_eq]

/-- A chain inside a union, rebracketed and freed of `all`, over a ranked axis; then the union in
front of a literal. -/
theorem combinations_rebracketed_ranked :
    let axes : Axes := .ofList
      [("L".toText, ⟨["1".toText, "2".toText], true⟩), ("D".toText, ⟨["x".toText], false⟩)]
    let low : Attribute := ⟨"L".toText, "1".toText⟩
    let high : Attribute := ⟨"L".toText, "2".toText⟩
    let x : Attribute := ⟨"D".toText, "x".toText⟩
    let left : AccessPolicy := .and (.and (.attr high) .all) (.attr x)
    let s : AccessPolicy := .or left (.attr low)
    let t : AccessPolicy := .or (.and (.attr high) (.attr x)) (.attr low)
    Rebracketed s t ∧ s ≠ t ∧ s.combinations axes true = t.combinations axes true ∧
      t.combinations axes true = .ok [[high, x], [low, x], [low]] ∧
      (.or (.and left (.attr x)) (.and (.attr low) (.attr x)) : AccessPolicy).combinations axes
          true =
        .ok [[high, x, x], [low, x, x], [low, x]] := by
  intro axes low high x left s t
  have hst : Rebracketed s t := .or (.and (.and_all _) (.refl _)) (.refl _)
  obtain ⟨hsame, hout⟩ := combinations_rebracketed axes true
  exact ⟨hst, by decide, hsame s t hst, rfl, (hout left (.attr low) (.attr x) _).1 rfl⟩

end AccessPolicy

end AttributeAccess
