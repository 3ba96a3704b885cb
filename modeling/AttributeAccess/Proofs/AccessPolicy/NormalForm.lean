import AttributeAccess.AccessPolicy.Combinations
import AttributeAccess.Proofs.OrderedMap

/-!
# Combinations as a normal form

A list of combinations is read as a disjunction of conjunctions: `Covers cs S` says that `S` holds
all the attributes of some combination. Each way of building combinations has its law: one for the
product, one for the union and one for a literal with its lower ranks. From these, and one
equation for each constructor, the combinations of a policy mean what the policy means
(`exists_combination_iff_satisfied`).
-/

namespace AttributeAccess

/-- A name is ranked below another when it is listed before it. -/
theorem AxisRecord.mem_below {r : AxisRecord} {lower name : Text} :
    lower ∈ r.below name ↔ r.Precedes lower name := by
  unfold below Precedes
  induction r.names with
  | nil => simp
  | cons n names ih =>
    by_cases hname : n = name
    · simp [hname]
    · rw [List.takeWhile_cons_of_pos (by simpa using hname), List.mem_cons, ih,
        List.idxOf_cons_ne _ hname]
      by_cases hlower : n = lower
      · simp [hlower]
      · rw [List.idxOf_cons_ne _ hlower]
        simp [Ne.symm hlower]

namespace AccessPolicy

/-- Some combination lies within `S`. -/
def Covers (cs : List Combination) (S : Attribute → Prop) : Prop :=
  ∃ c ∈ cs, ∀ a ∈ c, S a

section
variable {S : Attribute → Prop}

theorem covers_append {ls rs : List Combination} :
    Covers (ls ++ rs) S ↔ Covers ls S ∨ Covers rs S := by
  simp only [Covers, List.mem_append, or_and_right, exists_or]

theorem mem_product {ls rs : List Combination} {c : Combination} :
    c ∈ product ls rs ↔ ∃ l ∈ ls, ∃ r ∈ rs, l ++ r = c := by
  simp only [product, List.mem_flatMap, List.mem_map]

theorem covers_product {ls rs : List Combination} :
    Covers (product ls rs) S ↔ Covers ls S ∧ Covers rs S := by
  constructor
  · rintro ⟨c, hc, hS⟩
    obtain ⟨l, hl, r, hr, rfl⟩ := mem_product.1 hc
    rw [List.forall_mem_append] at hS
    exact ⟨⟨l, hl, hS.1⟩, ⟨r, hr, hS.2⟩⟩
  · rintro ⟨⟨l, hl, hlS⟩, ⟨r, hr, hrS⟩⟩
    exact ⟨l ++ r, mem_product.2 ⟨l, hl, r, hr, rfl⟩, List.forall_mem_append.2 ⟨hlS, hrS⟩⟩

/-- A combination of one attribute for each of the names. -/
theorem covers_singletons {axis : Text} {names : List Text} :
    Covers (names.map fun name => [⟨axis, name⟩]) S ↔ ∃ name ∈ names, S ⟨axis, name⟩ := by
  simp [Covers]

theorem covers_cons {c : Combination} {cs : List Combination} :
    Covers (c :: cs) S ↔ (∀ a ∈ c, S a) ∨ Covers cs S := by
  simp only [Covers, List.mem_cons, or_and_right, exists_or, exists_eq_left]

end

/-! ## One constructor -/

section
variable {axes : Axes} {follow : Bool} {cs : List Combination}

/-- A literal stands for itself and, where hierarchies are followed, for each lower rank. -/
theorem literalCombinations_eq_ok {a : Attribute} :
    literalCombinations axes follow a = .ok cs ↔
      ∃ record, axes.get? a.axis = some record ∧
        ((follow ∧ record.hierarchical) ∧ a.name ∈ record.names ∧
            cs = [a] :: (record.below a.name).map (fun name => [⟨a.axis, name⟩]) ∨
          ¬ (follow ∧ record.hierarchical) ∧ cs = [[a]]) := by
  unfold literalCombinations
  cases axes.get? a.axis with
  | none => simp
  | some record =>
    by_cases hf : follow ∧ record.hierarchical
    · by_cases hn : a.name ∈ record.names <;> simp [hf, hn, eq_comm (a := cs)]
    · have hf' : (follow && record.hierarchical) = false := by simpa using hf
      simp only [hf', hf, Bool.false_eq_true, if_false, Except.ok.injEq, Option.some.injEq,
        exists_eq_left', false_and, false_or, not_false_eq_true, true_and, eq_comm (a := cs)]

/-- Two operands are combined when both have combinations. -/
theorem combine_eq_ok {x y : Except Fault (List Combination)}
    {combine : List Combination → List Combination → List Combination} :
    (x >>= fun ls => y >>= fun rs => .ok (combine ls rs)) = .ok cs ↔
      ∃ ls rs, x = .ok ls ∧ y = .ok rs ∧ cs = combine ls rs := by
  cases x with
  | error f => simp [bind, Except.bind]
  | ok ls => cases y <;> simp [bind, Except.bind, eq_comm]

theorem combinations_and_eq_ok {l r : AccessPolicy} :
    (and l r).combinations axes follow = .ok cs ↔
      ∃ ls rs, l.combinations axes follow = .ok ls ∧ r.combinations axes follow = .ok rs ∧
        cs = product ls rs := by
  rw [combinations]
  exact combine_eq_ok

theorem combinations_or_eq_ok {l r : AccessPolicy} :
    (or l r).combinations axes follow = .ok cs ↔
      ∃ ls rs, l.combinations axes follow = .ok ls ∧ r.combinations axes follow = .ok rs ∧
        cs = ls ++ rs := by
  rw [combinations]
  exact combine_eq_ok

theorem covers_literalCombinations {a : Attribute}
    (h : literalCombinations axes follow a = .ok cs) (S : Attribute → Prop) :
    Covers cs S ↔ axes.Grants follow S a := by
  obtain ⟨record, hrecord, hcase⟩ := literalCombinations_eq_ok.1 h
  unfold Axes.Grants
  rcases hcase with ⟨⟨hfollow, hhier⟩, -, rfl⟩ | ⟨hflat, rfl⟩
  · rw [covers_cons, covers_singletons]
    simp [hfollow, hrecord, hhier, AxisRecord.mem_below]
  · -- nothing but the attribute itself makes the literal true
    have hnone : ¬ (follow ∧ ∃ record', axes.get? a.axis = some record' ∧ record'.hierarchical ∧
        ∃ name, record'.Precedes name a.name ∧ S ⟨a.axis, name⟩) := by
      rintro ⟨hfollow, record', hrecord', hhier, -⟩
      rw [hrecord] at hrecord'
      cases hrecord'
      exact hflat ⟨hfollow, hhier⟩
    rw [or_iff_left hnone]
    simp [Covers]

end

/-! ## Every policy -/

/-- **The combinations of a policy are its disjunctive normal form.** Whenever they can be listed,
a set of attributes holds all of some combination exactly when it satisfies the policy, with
literals read as `Grants` says. -/
theorem exists_combination_iff_satisfied {axes : Axes} {follow : Bool} {t : AccessPolicy}
    {cs : List Combination} (h : t.combinations axes follow = .ok cs) (S : Attribute → Prop) :
    (∃ c ∈ cs, ∀ a ∈ c, S a) ↔ t.Satisfied (axes.Grants follow S) := by
  show Covers cs S ↔ _
  induction t generalizing cs with
  | all =>
    cases h
    simp [Covers, Satisfied]
  | attr a => exact covers_literalCombinations h S
  | and l r ihl ihr =>
    obtain ⟨ls, rs, hl, hr, rfl⟩ := combinations_and_eq_ok.1 h
    rw [covers_product, ihl hl, ihr hr, Satisfied]
  | or l r ihl ihr =>
    obtain ⟨ls, rs, hl, hr, rfl⟩ := combinations_or_eq_ok.1 h
    rw [covers_append, ihl hl, ihr hr, Satisfied]

/-- Two ranks followed inside a product whose literal comes twice, beside `all`; the lowest rank
satisfies the policy though the policy does not name it. -/
theorem exists_combination_iff_satisfied_ranked :
    let axes : Axes := .ofList [
      ("L".toText, ⟨["1".toText, "2".toText, "3".toText], true⟩),
      ("D".toText, ⟨["x".toText], false⟩)]
    let rank (n : CodePoint) : Attribute := ⟨"L".toText, [n]⟩
    let x : Attribute := ⟨"D".toText, "x".toText⟩
    let t : AccessPolicy :=
      .and (.attr (rank (.char '2'))) (.or (.and .all (.attr x)) (.attr (rank (.char '2'))))
    let cs : List Combination := [
      [rank (.char '2'), x], [rank (.char '2'), rank (.char '2')],
      [rank (.char '2'), rank (.char '1')], [rank (.char '1'), x],
      [rank (.char '1'), rank (.char '2')], [rank (.char '1'), rank (.char '1')]]
    t.combinations axes true = .ok cs ∧
      ((∃ c ∈ cs, ∀ a ∈ c, a = rank (.char '1')) ↔
        t.Satisfied (axes.Grants true (· = rank (.char '1')))) ∧
      t.Satisfied (axes.Grants true (· = rank (.char '1'))) := by
  intro axes rank x t cs
  have hcs : t.combinations axes true = .ok cs := rfl
  have hiff := exists_combination_iff_satisfied hcs (· = rank (.char '1'))
  exact ⟨hcs, hiff, hiff.1 (by decide)⟩

end AccessPolicy

end AttributeAccess
