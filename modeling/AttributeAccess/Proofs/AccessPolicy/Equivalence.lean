import AttributeAccess.Proofs.AccessPolicy.Labelling

/-!
# What equivalence tells apart

Two policies with the same literals are compared by their values at one point, which the order of
the literals in the left one chooses. The polynomials of different policies may meet there, so three
things can go wrong: the two may mean different things, the answer may change when they are asked
for the other way round, and what holds from one policy to the next need not hold over two steps.
Whether any of this happens depends only on the literals at hand. It does not happen while there
are two of them or a single one that is repeated, and it does happen for any others; where `all` may
occur, two literals are enough, and one for a change of meaning (`equivalent_sound_iff`,
`equivalent_laws_iff`). The polynomials as such are no cause: without `all`, policies that have the
same value at every point mean the same (`satisfied_iff_of_value_eq`).
-/

namespace AttributeAccess.AccessPolicy

/-- No part of the policy is `all`. -/
def AllFree : AccessPolicy → Prop
  | all => False
  | attr _ => True
  | and l r => l.AllFree ∧ r.AllFree
  | or l r => l.AllFree ∧ r.AllFree

/-- The literals of the policy are those of the list, in any order. -/
def Over (as : List Attribute) (t : AccessPolicy) : Prop :=
  t.literals.Perm as

def AllFreeOver (as : List Attribute) (t : AccessPolicy) : Prop :=
  t.AllFree ∧ t.Over as

/-- No two literals of the list differ. -/
def Uniform (as : List Attribute) : Prop :=
  ∀ a ∈ as, ∀ b ∈ as, a = b

/-- Two literals at most, or a single one that is repeated. -/
def Few (as : List Attribute) : Prop :=
  as.length ≤ 2 ∨ Uniform as

/-- Policies of the class that count as equivalent mean the same. -/
def SoundOn (C : AccessPolicy → Prop) : Prop :=
  ∀ l r, C l → C r → l.equivalent r = true → ∀ S, l.Satisfied S ↔ r.Satisfied S

/-- It does not matter which of two policies of the class is the left one. -/
def SymmetricOn (C : AccessPolicy → Prop) : Prop :=
  ∀ l r, C l → C r → l.equivalent r = r.equivalent l

def TransitiveOn (C : AccessPolicy → Prop) : Prop :=
  ∀ s t u, C s → C t → C u → s.equivalent t = true → t.equivalent u = true → s.equivalent u = true

variable {as rest : List Attribute} {a b c : Attribute} {l r t : AccessPolicy}
  {S : Attribute → Prop}

/-! ## Meaning -/

theorem AllFree.literals_ne_nil (h : t.AllFree) : t.literals ≠ [] := by
  induction t with
  | all => exact h.elim
  | attr a => exact List.cons_ne_nil _ _
  | and l r ihl _ | or l r ihl _ => exact List.append_ne_nil_of_left_ne_nil (ihl h.1) _

/-- Where all literals are true or all false, a policy is what they are. -/
theorem AllFree.satisfied_iff {p : Prop} (h : t.AllFree) (hp : ∀ a ∈ t.literals, S a ↔ p) :
    t.Satisfied S ↔ p := by
  induction t with
  | all => exact h.elim
  | attr a => exact hp a (List.mem_singleton.2 rfl)
  | and l r ihl ihr =>
    rw [literals, List.forall_mem_append] at hp
    rw [Satisfied, ihl h.1 hp.1, ihr h.2 hp.2, and_self]
  | or l r ihl ihr =>
    rw [literals, List.forall_mem_append] at hp
    rw [Satisfied, ihl h.1 hp.1, ihr h.2 hp.2, or_self]

theorem satisfied_of_literals_eq_nil (h : t.literals = []) : t.Satisfied S := by
  induction t with
  | all => trivial
  | attr a => cases h
  | and l r ihl ihr =>
    rw [literals, List.append_eq_nil_iff] at h
    exact ⟨ihl h.1, ihr h.2⟩
  | or l r ihl _ =>
    rw [literals, List.append_eq_nil_iff] at h
    exact .inl (ihl h.1)

/-- Sums and products of numbers are zero as disjunctions and conjunctions are false. -/
theorem AllFree.value_ne_zero_iff (h : t.AllFree) (p : Attribute → Nat) :
    t.value p ≠ 0 ↔ t.Satisfied (p · ≠ 0) := by
  induction t with
  | all => exact h.elim
  | attr a => exact Iff.rfl
  | and l r ihl ihr => rw [value, Nat.mul_ne_zero_iff, ihl h.1, ihr h.2, Satisfied]
  | or l r ihl ihr =>
    rw [value, Satisfied, ← ihl h.1, ← ihr h.2]
    omega

theorem satisfied_iff_of_value_eq (hl : l.AllFree) (hr : r.AllFree)
    (h : ∀ label, l.value label = r.value label) (S : Attribute → Prop) :
    l.Satisfied S ↔ r.Satisfied S := by
  classical
  have hS : S = fun a => (if S a then 1 else 0) ≠ 0 := by
    funext a
    by_cases ha : S a <;> simp [ha]
  rw [hS, ← hl.value_ne_zero_iff, ← hr.value_ne_zero_iff, h]

/-! ## A common part -/

/-- A part that both policies have does not change the answer. -/
theorem equivalent_or_common (l r t : AccessPolicy) :
    (l.or t).equivalent (r.or t) = l.equivalent r := by
  rw [Bool.eq_iff_iff, equivalent_iff, equivalent_iff]
  simp only [literals, value, List.perm_append_right_iff]
  refine and_congr_right fun hperm => ?_
  have hl : l.value (firstLabel (l.literals ++ t.literals)) = l.value (firstLabel l.literals) :=
    value_congr fun a ha => firstLabel_append ha _
  have hr : r.value (firstLabel (l.literals ++ t.literals)) = r.value (firstLabel l.literals) :=
    value_congr fun a ha => firstLabel_append (hperm.mem_iff.2 ha) _
  rw [hl, hr, Nat.add_right_cancel_iff]

/-- All of some attributes. -/
def allOf (first : Attribute) : List Attribute → AccessPolicy
  | [] => attr first
  | second :: others => (attr first).and (allOf second others)

/-- The policy, or else all of the attributes if there are any. -/
def orAllOf (t : AccessPolicy) : List Attribute → AccessPolicy
  | [] => t
  | first :: others => t.or (allOf first others)

theorem literals_allOf (a : Attribute) (as : List Attribute) : (allOf a as).literals = a :: as := by
  induction as generalizing a with
  | nil => rfl
  | cons b as ih => rw [allOf, literals, ih]; rfl

theorem allFree_allOf (a : Attribute) (as : List Attribute) : (allOf a as).AllFree := by
  induction as generalizing a with
  | nil => trivial
  | cons b as ih => exact ⟨trivial, ih b⟩

theorem satisfied_allOf (as : List Attribute) :
    (allOf a as).Satisfied S ↔ ∀ b ∈ a :: as, S b := by
  induction as generalizing a with
  | nil => simp [allOf, Satisfied]
  | cons b as ih => rw [allOf, Satisfied, ih, List.forall_mem_cons (a := a), Satisfied]

theorem literals_orAllOf (t : AccessPolicy) (as : List Attribute) :
    (t.orAllOf as).literals = t.literals ++ as := by
  cases as with
  | nil => exact (List.append_nil _).symm
  | cons b as => rw [orAllOf, literals, literals_allOf]

theorem AllFree.orAllOf (h : t.AllFree) (as : List Attribute) : (t.orAllOf as).AllFree := by
  cases as with
  | nil => exact h
  | cons b as => exact ⟨h, allFree_allOf b as⟩

theorem equivalent_orAllOf (l r : AccessPolicy) (as : List Attribute) :
    (l.orAllOf as).equivalent (r.orAllOf as) = l.equivalent r := by
  cases as with
  | nil => rfl
  | cons b as => exact equivalent_or_common l r _

theorem satisfied_orAllOf (h : ¬ (as ≠ [] ∧ ∀ b ∈ as, S b)) :
    (t.orAllOf as).Satisfied S ↔ t.Satisfied S := by
  cases as with
  | nil => exact Iff.rfl
  | cons b as =>
    rw [AccessPolicy.orAllOf, Satisfied, satisfied_allOf]
    exact or_iff_left fun hall => h ⟨List.cons_ne_nil _ _, hall⟩

theorem Over.orAllOf (h : t.Over as) (rest : List Attribute) :
    (t.orAllOf rest).Over (as ++ rest) := by
  rw [Over, literals_orAllOf]
  exact h.append_right rest

/-! ## Few literals -/

theorem firstLabel_cons (a : Attribute) (as : List Attribute) (b : Attribute) :
    firstLabel (a :: as) b =
      if a = b then 1 else firstLabel (as.filter fun c => !c == a) b + 1 := by
  rw [firstLabel, List.eraseDups_cons]
  by_cases h : a = b
  · simp [h]
  · rw [if_neg h, List.idxOf_cons_ne _ h, firstLabel]

theorem eq_of_perm_pair (h : as.Perm [a, b]) : as = [a, b] ∨ as = [b, a] := by
  obtain ⟨c, d, rfl⟩ := List.length_eq_two.1 h.length_eq
  have hc : c = a ∨ c = b := by simpa using h.mem_iff.1 List.mem_cons_self
  rcases hc with rfl | rfl
  · have hd := List.perm_singleton.1 ((List.perm_cons c).1 h)
    exact .inl (by rw [hd])
  · have hd := List.perm_singleton.1 ((List.perm_cons c).1 (h.trans (.swap c a [])))
    exact .inr (by rw [hd])

/-- Two literals have the numbers one and two in either order, or one number if they are the
same. -/
theorem firstLabel_pair (h : as.Perm [a, b]) :
    firstLabel as a * firstLabel as b = (if a = b then 1 else 2) ∧
      firstLabel as a + firstLabel as b = if a = b then 2 else 3 := by
  by_cases hab : a = b
  · subst hab
    rcases eq_of_perm_pair h with rfl | rfl <;> simp [firstLabel_cons]
  · rcases eq_of_perm_pair h with rfl | rfl <;> simp [firstLabel_cons, hab, Ne.symm hab]

theorem Uniform.eq_of_perm (h : Uniform as) (hperm : rest.Perm as) : rest = as := by
  cases as with
  | nil => exact hperm.eq_nil
  | cons a as =>
    have hall : ∀ b ∈ a :: as, b = a := fun b hb => h b hb a List.mem_cons_self
    rw [List.eq_replicate_of_mem hall] at hperm ⊢
    exact List.perm_replicate.1 hperm

theorem AllFree.exists_attr (h : t.AllFree) (hlen : t.literals.length = 1) : ∃ a, t = attr a := by
  cases t with
  | all => exact h.elim
  | attr a => exact ⟨a, rfl⟩
  | and l r | or l r =>
    have hl := List.length_pos_iff.2 h.1.literals_ne_nil
    have hr := List.length_pos_iff.2 h.2.literals_ne_nil
    rw [literals, List.length_append] at hlen
    omega

/-- Without `all`, two literals leave only the connective open. -/
theorem AllFree.exists_of_length_le_two (h : t.AllFree) (hlen : t.literals.length ≤ 2) :
    (∃ a, t = attr a) ∨
      ∃ a b, t = (attr a).and (attr b) ∨ t = (attr a).or (attr b) := by
  cases t with
  | all => exact h.elim
  | attr a => exact .inl ⟨a, rfl⟩
  | and l r | or l r =>
    have hl := List.length_pos_iff.2 h.1.literals_ne_nil
    have hr := List.length_pos_iff.2 h.2.literals_ne_nil
    rw [literals, List.length_append] at hlen
    obtain ⟨a, rfl⟩ := h.1.exists_attr (by omega)
    obtain ⟨b, rfl⟩ := h.2.exists_attr (by omega)
    simp

/-- The values of the class do not depend on which of its policies numbers the literals. -/
def Settled (C : AccessPolicy → Prop) : Prop :=
  ∃ label, ∀ s t, C s → C t → t.value (firstLabel s.literals) = t.value label

section
variable {C : AccessPolicy → Prop}

theorem Settled.symmetricOn (h : Settled C) : SymmetricOn C := by
  obtain ⟨label, hlabel⟩ := h
  intro l r hl hr
  rw [Bool.eq_iff_iff, equivalent_iff, equivalent_iff, hlabel l l hl hl, hlabel l r hl hr,
    hlabel r l hr hl, hlabel r r hr hr, List.perm_comm, eq_comm]

theorem Settled.transitiveOn (h : Settled C) : TransitiveOn C := by
  obtain ⟨label, hlabel⟩ := h
  intro s t u hs ht hu hst htu
  rw [equivalent_iff, hlabel s s hs hs, hlabel s t hs ht] at hst
  rw [equivalent_iff, hlabel t t ht ht, hlabel t u ht hu] at htu
  rw [equivalent_iff, hlabel s s hs hs, hlabel s u hs hu]
  exact ⟨hst.1.trans htu.1, hst.2.trans htu.2⟩

theorem settled_of_uniform (h : Uniform as) : Settled (Over as) := by
  refine ⟨firstLabel as, fun s t hs _ => ?_⟩
  rw [h.eq_of_perm hs]

theorem settled_of_few (h : Few as) : Settled (AllFreeOver as) := by
  by_cases huniform : Uniform as
  · obtain ⟨label, hlabel⟩ := settled_of_uniform huniform
    exact ⟨label, fun s t hs ht => hlabel s t hs.2 ht.2⟩
  · have hlen := h.resolve_right huniform
    refine ⟨firstLabel as, fun s t hs ht => ?_⟩
    have hst : s.literals.Perm t.literals := hs.2.trans ht.2.symm
    have hat : as.Perm t.literals := ht.2.symm
    rcases ht.1.exists_of_length_le_two (hat.length_eq ▸ hlen) with ⟨a, rfl⟩ | ⟨a, b, rfl | rfl⟩
    · rw [List.perm_singleton.1 hst, List.perm_singleton.1 hat]
    · exact (firstLabel_pair hst).1.trans (firstLabel_pair hat).1.symm
    · exact (firstLabel_pair hst).2.trans (firstLabel_pair hat).2.symm

end

/-- Equivalent pairs have the same connective, since a product of the two numbers is not their
sum. -/
theorem satisfied_pair_iff {d : Attribute}
    (hl : l = (attr a).and (attr b) ∨ l = (attr a).or (attr b))
    (hr : r = (attr c).and (attr d) ∨ r = (attr c).or (attr d)) (h : l.equivalent r = true) :
    l.Satisfied S ↔ r.Satisfied S := by
  have hne : firstLabel [a, b] a * firstLabel [a, b] b ≠
      firstLabel [a, b] a + firstLabel [a, b] b := by
    rw [(firstLabel_pair (.refl _)).1, (firstLabel_pair (.refl _)).2]
    split <;> decide
  obtain ⟨hperm, hvalue⟩ := equivalent_iff.1 h
  rcases hl with rfl | rfl <;> rcases hr with rfl | rfl
  · rcases eq_of_perm_pair hperm with hsame | hsame <;> cases hsame
    · exact Iff.rfl
    · exact and_comm
  · rcases eq_of_perm_pair hperm with hsame | hsame <;> cases hsame
    · exact absurd hvalue hne
    · exact absurd (hvalue.trans (Nat.add_comm _ _)) hne
  · rcases eq_of_perm_pair hperm with hsame | hsame <;> cases hsame
    · exact absurd hvalue.symm hne
    · exact absurd ((Nat.mul_comm _ _).trans hvalue.symm) hne
  · rcases eq_of_perm_pair hperm with hsame | hsame <;> cases hsame
    · exact Iff.rfl
    · exact or_comm

/-- Policies with the same two literals mean the same if their connectives are the same, and if they
are not, they have different values. -/
theorem soundOn_of_few (h : Few as) : SoundOn (AllFreeOver as) := by
  intro l r hl hr hlr S
  have hperm := (equivalent_iff.1 hlr).1
  have hvalue := (equivalent_iff.1 hlr).2
  rcases h with hlen | huniform
  · rw [← hl.2.length_eq] at hlen
    rcases hl.1.exists_of_length_le_two hlen with ⟨a, rfl⟩ | ⟨a, b, hpair⟩
    · obtain ⟨b, rfl⟩ := hr.1.exists_attr hperm.length_eq.symm
      cases List.perm_singleton.1 hperm
      exact Iff.rfl
    · rcases hr.1.exists_of_length_le_two (hperm.length_eq ▸ hlen) with ⟨c, rfl⟩ | ⟨c, d, hpair'⟩
      · rcases hpair with rfl | rfl <;> cases hperm.length_eq
      · exact satisfied_pair_iff hpair hpair' hlr
  · obtain ⟨a, ha⟩ := List.exists_mem_of_ne_nil _ hl.1.literals_ne_nil
    have hall : ∀ b ∈ as, S b ↔ S a := fun b hb => by rw [huniform b hb a (hl.2.mem_iff.1 ha)]
    rw [hl.1.satisfied_iff fun b hb => hall b (hl.2.mem_iff.1 hb),
      hr.1.satisfied_iff fun b hb => hall b (hr.2.mem_iff.1 hb)]

/-! ## Many literals -/

theorem exists_perm_pair (h : ¬ Uniform as) : ∃ a b rest, a ≠ b ∧ as.Perm (a :: b :: rest) := by
  simp only [Uniform, not_forall] at h
  obtain ⟨a, ha, b, hb, hab⟩ := h
  have hb' : b ∈ as.erase a := (List.mem_erase_of_ne (Ne.symm hab)).2 hb
  exact ⟨a, b, _, hab,
    (List.perm_cons_erase ha).trans ((List.perm_cons_erase hb').cons a)⟩

/-- Any other literals hold two different ones, and a third that is the first or different too. -/
theorem exists_perm_triple (h : ¬ Few as) :
    ∃ a b c rest, a ≠ b ∧ (c = a ∨ c ≠ a ∧ c ≠ b) ∧ as.Perm ([a, b, c] ++ rest) := by
  rw [Few, not_or, Nat.not_le] at h
  obtain ⟨a, b, rest, hab, hperm⟩ := exists_perm_pair h.2
  cases rest with
  | nil =>
    have hlen := hperm.length_eq
    simp only [List.length_cons, List.length_nil] at hlen
    omega
  | cons c rest =>
    by_cases hca : c = a
    · exact ⟨a, b, c, rest, hab, .inl hca, hperm⟩
    · by_cases hcb : c = b
      · exact ⟨b, a, c, rest, Ne.symm hab, .inl hcb, hperm.trans (.swap b a _)⟩
      · exact ⟨a, b, c, rest, hab, .inr ⟨hca, hcb⟩, hperm⟩

/-- Three policies of a class with which equivalence goes wrong in every way: it holds from `s` to
`t` and on to `u`, but neither back nor from `s` to `u`, and two sets of one attribute each tell the
meanings of `s` and `t` apart. -/
structure Muddled (C : AccessPolicy → Prop) (s t u : AccessPolicy) : Prop where
  mem : C s ∧ C t ∧ C u
  forth : s.equivalent t = true
  back : t.equivalent s = false
  onward : t.equivalent u = true
  across : s.equivalent u = false
  apart : ∃ x y, x ≠ y ∧ ∀ z, z = x ∨ z = y → ¬ (s.Satisfied (· = z) ↔ t.Satisfied (· = z))

/-- One literal twice: 1 + 1 + 2 = 2 * (1 + 1), and seen from there 1 * (2 + 2) = 2 * 2 * 1. -/
theorem muddled_same (hab : a ≠ b) :
    Muddled (AllFreeOver [a, b, a]) (.or (.or (.attr a) (.attr a)) (.attr b))
      (.and (.attr b) (.or (.attr a) (.attr a))) (.and (.and (.attr a) (.attr a)) (.attr b)) where
  mem := ⟨⟨by simp [AllFree], (List.Perm.swap _ _ _).cons _⟩, ⟨by simp [AllFree], .swap _ _ _⟩,
    ⟨by simp [AllFree], (List.Perm.swap _ _ _).cons _⟩⟩
  forth := equivalent_iff.2 ⟨@List.perm_append_comm _ [a, a] [b], by
    simp [value, literals, firstLabel_cons, hab, Ne.symm hab]⟩
  back := equivalent_eq_false (by
    simp [value, literals, firstLabel_cons, hab, Ne.symm hab])
  onward := equivalent_iff.2 ⟨@List.perm_append_comm _ [b] [a, a], by
    simp [value, literals, firstLabel_cons, hab, Ne.symm hab]⟩
  across := equivalent_eq_false (by
    simp [value, literals, firstLabel_cons, hab, Ne.symm hab])
  apart := ⟨a, b, hab, by rintro z (rfl | rfl) <;> simp [Satisfied, hab, Ne.symm hab]⟩

/-- Three literals passed on in a circle: 1 * 2 + 3 = 3 * 1 + 2 one way round. -/
theorem equivalent_onward (hab : a ≠ b) (hca : c ≠ a) (hcb : c ≠ b) :
    (((attr a).and (attr b)).or (attr c)).equivalent (((attr c).and (attr a)).or (attr b)) = true :=
  equivalent_iff.2 ⟨@List.perm_append_comm _ [a, b] [c], by
    simp [value, literals, firstLabel_cons, hab, hca, hcb, Ne.symm hab, Ne.symm hca, Ne.symm hcb]⟩

/-- The other way round they have the values 1 * 2 + 3 and 2 * 3 + 1. -/
theorem equivalent_backward (hab : a ≠ b) (hca : c ≠ a) (hcb : c ≠ b) :
    (((attr a).and (attr b)).or (attr c)).equivalent (((attr b).and (attr c)).or (attr a)) =
      false :=
  equivalent_eq_false (by
    simp [value, literals, firstLabel_cons, hab, hca, hcb, Ne.symm hab, Ne.symm hca, Ne.symm hcb])

theorem muddled_distinct (hab : a ≠ b) (hca : c ≠ a) (hcb : c ≠ b) :
    Muddled (AllFreeOver [a, b, c]) (.or (.and (.attr a) (.attr b)) (.attr c))
      (.or (.and (.attr c) (.attr a)) (.attr b)) (.or (.and (.attr b) (.attr c)) (.attr a)) where
  mem := ⟨⟨by simp [AllFree], .refl _⟩, ⟨by simp [AllFree], @List.perm_append_comm _ [c] [a, b]⟩,
    ⟨by simp [AllFree], @List.perm_append_comm _ [b, c] [a]⟩⟩
  forth := equivalent_onward hab hca hcb
  back := equivalent_backward hca (Ne.symm hcb) (Ne.symm hab)
  onward := equivalent_onward hca (Ne.symm hcb) (Ne.symm hab)
  across := equivalent_backward hab hca hcb
  apart := ⟨b, c, Ne.symm hcb, by
    rintro z (rfl | rfl) <;> simp [Satisfied, hab, hcb, Ne.symm hca, Ne.symm hcb]⟩

/-- Two literals and `all`: 0 * 1 + 2 = 2 * 1, and seen from there 1 * 2 = 0 * 1 + 2. -/
theorem muddled_all (hab : a ≠ b) :
    Muddled (Over [a, b]) (.or (.and .all (.attr a)) (.attr b)) (.and (.attr b) (.attr a))
      (.or (.and .all (.attr b)) (.attr a)) where
  mem := ⟨.refl _, .swap _ _ _, .swap _ _ _⟩
  forth := equivalent_iff.2 ⟨.swap _ _ _, by
    simp [value, literals, firstLabel_cons, hab, Ne.symm hab]⟩
  back := equivalent_eq_false (by
    simp [value, literals, firstLabel_cons, hab, Ne.symm hab])
  onward := equivalent_iff.2 ⟨.refl _, by
    simp [value, literals, firstLabel_cons, hab, Ne.symm hab]⟩
  across := equivalent_eq_false (by
    simp [value, literals, firstLabel_cons, hab, Ne.symm hab])
  apart := ⟨a, b, hab, by rintro z (rfl | rfl) <;> simp [Satisfied, hab, Ne.symm hab]⟩

/-- What goes wrong goes on doing so beside the rest of the literals. -/
theorem Muddled.not_on {C D : AccessPolicy → Prop} {s t u : AccessPolicy} (h : Muddled C s t u)
    (hD : ∀ t, C t → D (t.orAllOf rest)) :
    ¬ SoundOn D ∧ ¬ SymmetricOn D ∧ ¬ TransitiveOn D := by
  obtain ⟨⟨hs, ht, hu⟩, hforth, hback, honward, hacross, x, y, hxy, hapart⟩ := h
  rw [← equivalent_orAllOf _ _ rest] at hforth hback honward hacross
  refine ⟨fun hsound => ?_, fun hsymm => ?_, fun htrans => ?_⟩
  · -- at `x` or at `y` the rest of the literals is not all true
    obtain ⟨z, hz, hrest⟩ : ∃ z, (z = x ∨ z = y) ∧ ¬ (rest ≠ [] ∧ ∀ b ∈ rest, b = z) := by
      by_cases hx : rest ≠ [] ∧ ∀ b ∈ rest, b = x
      · refine ⟨y, .inr rfl, fun hy => hxy ?_⟩
        obtain ⟨b, hb⟩ := List.exists_mem_of_ne_nil _ hx.1
        exact (hx.2 b hb).symm.trans (hy.2 b hb)
      · exact ⟨x, .inl rfl, hx⟩
    have hsame := hsound _ _ (hD s hs) (hD t ht) hforth (· = z)
    rw [satisfied_orAllOf hrest, satisfied_orAllOf hrest] at hsame
    exact hapart z hz hsame
  · rw [hsymm _ _ (hD s hs) (hD t ht), hback] at hforth
    cases hforth
  · rw [htrans _ _ _ (hD s hs) (hD t ht) (hD u hu) hforth honward] at hacross
    cases hacross

theorem not_on_of_not_few (h : ¬ Few as) :
    ¬ SoundOn (AllFreeOver as) ∧ ¬ SymmetricOn (AllFreeOver as) ∧
      ¬ TransitiveOn (AllFreeOver as) := by
  obtain ⟨a, b, c, rest, hab, hc, hperm⟩ := exists_perm_triple h
  have hmem : ∀ t, AllFreeOver [a, b, c] t → AllFreeOver as (t.orAllOf rest) :=
    fun t ht => ⟨ht.1.orAllOf rest, (ht.2.orAllOf rest).trans hperm.symm⟩
  rcases hc with rfl | ⟨hca, hcb⟩
  · exact (muddled_same hab).not_on hmem
  · exact (muddled_distinct hab hca hcb).not_on hmem

theorem not_on_of_not_uniform (h : ¬ Uniform as) :
    ¬ SymmetricOn (Over as) ∧ ¬ TransitiveOn (Over as) := by
  obtain ⟨a, b, rest, hab, hperm⟩ := exists_perm_pair h
  exact ((muddled_all hab).not_on fun t ht => (ht.orAllOf rest).trans hperm.symm).2

/-- `all` is zero in a sum, which it makes true. -/
theorem soundOn_over_iff : SoundOn (Over as) ↔ as = [] := by
  constructor
  · intro h
    cases as with
    | nil => rfl
    | cons a as =>
      have hequivalent : (AccessPolicy.all.or (allOf a as)).equivalent (allOf a as) = true :=
        equivalent_iff.2 ⟨.refl _, Nat.zero_add _⟩
      have hmem : Over (a :: as) (allOf a as) := .of_eq (literals_allOf a as)
      have hsame := h (.or .all (allOf a as)) _ hmem hmem hequivalent fun _ => False
      have hall := (satisfied_allOf as).1 (hsame.1 (.inl trivial)) a List.mem_cons_self
      exact hall.elim
  · rintro rfl l r hl hr - S
    rw [iff_true_intro (satisfied_of_literals_eq_nil hl.eq_nil),
      iff_true_intro (satisfied_of_literals_eq_nil hr.eq_nil)]

/-! ## Where equivalence can be trusted -/

/-- **Equivalence tells meanings apart only over few literals.** Over the policies that are built
from given literals, equivalent ones mean the same exactly when there is no literal at all or, if
`all` is left out, when there are two at most or a single one that is repeated. What the comparison
stands for is sound: without `all`, policies with the same polynomial mean the same. -/
theorem equivalent_sound_iff (as : List Attribute) :
    (SoundOn (Over as) ↔ as = []) ∧ (SoundOn (AllFreeOver as) ↔ Few as) ∧
      ∀ l r : AccessPolicy, l.AllFree → r.AllFree →
        (∀ label, l.value label = r.value label) → ∀ S, l.Satisfied S ↔ r.Satisfied S := by
  refine ⟨soundOn_over_iff, ⟨fun h => ?_, soundOn_of_few⟩, fun l r => satisfied_iff_of_value_eq⟩
  by_contra hfew
  exact (not_on_of_not_few hfew).1 h

/-- All of three attributes and any of them: both have the value six. -/
theorem equivalent_of_other_meaning :
    let x (n : CodePoint) : AccessPolicy := .attr ⟨"A".toText, [n]⟩
    let l := ((x (.char 'a')).and (x (.char 'b'))).and (x (.char 'c'))
    let r := ((x (.char 'a')).or (x (.char 'b'))).or (x (.char 'c'))
    l.equivalent r = true ∧
      ¬ l.Satisfied (· = ⟨"A".toText, "a".toText⟩) ∧
      r.Satisfied (· = ⟨"A".toText, "a".toText⟩) := by
  intro x l r
  exact ⟨equivalent_iff.2 ⟨by decide, by decide⟩,
    fun h => absurd (congrArg Attribute.name h.2) (by decide),
    .inl (.inl rfl)⟩

/-- **Every policy is equivalent to itself, and the other laws of an equivalence hold over few
literals only.** Over the policies built from given literals each of the two laws holds exactly when
no two of the literals differ or, if `all` is left out, also when there are two at most. -/
theorem equivalent_laws_iff (as : List Attribute) :
    (∀ t : AccessPolicy, t.equivalent t = true) ∧
      (SymmetricOn (Over as) ↔ Uniform as) ∧ (TransitiveOn (Over as) ↔ Uniform as) ∧
      (SymmetricOn (AllFreeOver as) ↔ Few as) ∧ (TransitiveOn (AllFreeOver as) ↔ Few as) := by
  refine ⟨fun t => equivalent_iff.2 ⟨.refl _, rfl⟩, ⟨fun h => ?_, fun h => ?_⟩,
    ⟨fun h => ?_, fun h => ?_⟩, ⟨fun h => ?_, fun h => ?_⟩, ⟨fun h => ?_, fun h => ?_⟩⟩
  · by_contra huniform
    exact (not_on_of_not_uniform huniform).1 h
  · exact (settled_of_uniform h).symmetricOn
  · by_contra huniform
    exact (not_on_of_not_uniform huniform).2 h
  · exact (settled_of_uniform h).transitiveOn
  · by_contra hfew
    exact (not_on_of_not_few hfew).2.1 h
  · exact (settled_of_few h).symmetricOn
  · by_contra hfew
    exact (not_on_of_not_few hfew).2.2 h
  · exact (settled_of_few h).transitiveOn

/-- From the left policy the two have the values 5 and 5, from the right one 9 and 5; and three
policies of one shape each lead to the next but not over it. -/
theorem equivalent_not_symmetric :
    let x (n : CodePoint) : AccessPolicy := .attr ⟨"A".toText, [n]⟩
    let s := ((x (.char 'a')).and (x (.char 'b'))).or (x (.char 'c'))
    let t := ((x (.char 'b')).or (x (.char 'c'))).and (x (.char 'a'))
    let u := ((x (.char 'c')).and (x (.char 'a'))).or (x (.char 'b'))
    let v := ((x (.char 'b')).and (x (.char 'c'))).or (x (.char 'a'))
    s.equivalent t = true ∧ t.equivalent s = false ∧
      s.equivalent u = true ∧ u.equivalent v = true ∧ s.equivalent v = false := by
  intro x s t u v
  refine ⟨equivalent_iff.2 ⟨by decide, by decide⟩, ?_, equivalent_iff.2 ⟨by decide, by decide⟩,
    equivalent_iff.2 ⟨by decide, by decide⟩, ?_⟩
  · exact equivalent_eq_false (by decide)
  · exact equivalent_eq_false (by decide)

end AttributeAccess.AccessPolicy
