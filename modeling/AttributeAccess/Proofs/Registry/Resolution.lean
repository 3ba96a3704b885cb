import AttributeAccess.Proofs.AccessPolicy.NormalForm
import AttributeAccess.Proofs.Registry.Ledger

/-!
# Policies resolved against a registry

A policy over attributes that the axes list has combinations, and these hold listed attributes only,
also where hierarchies bring in attributes that the policy does not name
(`exists_combinations`). In a gapless registry each listed attribute has a record with a largest
slot, which no other attribute holds (`Gapless.exists_currentSlot`, `Gapless.eq_of_newest`). So
every combination of a policy over registered attributes has its current slots and its hint
(`combinations_resolve`).
-/

namespace AttributeAccess

/-- Join of hints: one that is hybridized is enough. -/
theorem Hint.joinAll_eq_hybridized_iff {hs : List Hint} :
    joinAll hs = hybridized ↔ hybridized ∈ hs := by
  have key : ∀ (hs : List Hint) (h : Hint),
      hs.foldl join h = hybridized ↔ h = hybridized ∨ hybridized ∈ hs := by
    intro hs
    induction hs with
    | nil => simp
    | cons g hs ih =>
      intro h
      rw [List.foldl_cons, ih]
      cases h <;> cases g <;> simp [join]
  exact (key hs classic).trans (by simp)

/-! ## Traversals -/

section
variable {ε α β : Type} {as : List α} {bs : List β}

theorem mapM_eq_ok {f : α → Except ε β} :
    as.mapM f = .ok bs ↔ List.Forall₂ (fun a b => f a = .ok b) as bs := by
  induction as generalizing bs with
  | nil =>
    rw [List.forall₂_nil_left_iff]
    show Except.ok [] = Except.ok bs ↔ _
    rw [Except.ok.injEq, eq_comm]
  | cons a as ih =>
    rw [List.mapM_cons, List.forall₂_cons_left_iff]
    constructor
    · intro h
      cases hb : f a with
      | error e => simp [hb, bind, Except.bind] at h
      | ok b =>
        cases hbs : as.mapM f with
        | error e => simp [hb, hbs, bind, Except.bind] at h
        | ok bs' =>
          rw [hb, hbs] at h
          cases h
          exact ⟨b, bs', rfl, ih.1 hbs, rfl⟩
    · rintro ⟨b, bs', hb, hbs, rfl⟩
      rw [hb, ih.2 hbs]
      rfl

/-- Where every call succeeds, so does the traversal, and in the same order. -/
theorem exists_mapM {f : α → Except ε β} {R : α → β → Prop}
    (h : ∀ a ∈ as, ∃ b, f a = .ok b ∧ R a b) : ∃ bs, as.mapM f = .ok bs ∧ List.Forall₂ R as bs := by
  induction as with
  | nil => exact ⟨[], rfl, .nil⟩
  | cons a as ih =>
    rw [List.forall_mem_cons] at h
    obtain ⟨⟨b, hb, hR⟩, htail⟩ := h
    obtain ⟨bs, hbs, hRs⟩ := ih htail
    refine ⟨b :: bs, ?_, .cons hR hRs⟩
    rw [List.mapM_cons, hb, hbs]
    rfl

theorem exists_getElem?_of_forall₂ {R : α → β → Prop} (h : List.Forall₂ R as bs) {i : Nat} {b : β}
    (hb : bs[i]? = some b) : ∃ a, as[i]? = some a ∧ R a b := by
  induction h generalizing i with
  | nil => cases hb
  | cons hR _ ih =>
    cases i with
    | zero =>
      cases hb
      exact ⟨_, rfl, hR⟩
    | succ i => exact ih hb

theorem mem_iff_of_forall₂ {f : α → Except ε β} (h : List.Forall₂ (fun a b => f a = .ok b) as bs)
    (b : β) : b ∈ bs ↔ ∃ a ∈ as, f a = .ok b := by
  induction h with
  | nil => simp
  | cons hab _ ih =>
    rw [List.mem_cons, ih, List.exists_mem_cons_iff, hab, Except.ok.injEq, eq_comm]

end

namespace Registry

variable {r : Registry}

/-! ## Combinations -/

/-- The lower ranks of a listed attribute are listed too. -/
theorem lists_of_mem_below {a : Attribute} {record : AxisRecord} {name : Text}
    (h : r.axes.get? a.axis = some record) (hname : name ∈ record.below a.name) :
    r.Lists ⟨a.axis, name⟩ :=
  ⟨record, h, List.takeWhile_subset _ hname⟩

theorem exists_literalCombinations {a : Attribute} (h : r.Lists a) (follow : Bool) :
    ∃ cs, AccessPolicy.literalCombinations r.axes follow a = .ok cs ∧
      ∀ c ∈ cs, ∀ b ∈ c, r.Lists b := by
  obtain ⟨record, hrecord, hname⟩ := id h
  by_cases hfollow : follow ∧ record.hierarchical
  · refine ⟨_, AccessPolicy.literalCombinations_eq_ok.2
      ⟨record, hrecord, .inl ⟨hfollow, hname, rfl⟩⟩, ?_⟩
    simp only [List.forall_mem_cons, List.mem_map]
    refine ⟨⟨h, by simp⟩, ?_⟩
    rintro c ⟨lower, hlower, rfl⟩ b hb
    cases List.mem_singleton.1 hb
    exact lists_of_mem_below hrecord hlower
  · refine ⟨[[a]], AccessPolicy.literalCombinations_eq_ok.2
      ⟨record, hrecord, .inr ⟨hfollow, rfl⟩⟩, ?_⟩
    simpa using h

/-- A policy over listed attributes has combinations, of listed attributes. -/
theorem exists_combinations {t : AccessPolicy} (h : ∀ a ∈ t.literals, r.Lists a) (follow : Bool) :
    ∃ cs, t.combinations r.axes follow = .ok cs ∧ ∀ c ∈ cs, ∀ a ∈ c, r.Lists a := by
  induction t with
  | all => exact ⟨[[]], rfl, by simp⟩
  | attr a => exact exists_literalCombinations (h a (List.mem_singleton.2 rfl)) follow
  | and l r ihl ihr =>
    rw [AccessPolicy.literals, List.forall_mem_append] at h
    obtain ⟨ls, hls, hl⟩ := ihl h.1
    obtain ⟨rs, hrs, hr⟩ := ihr h.2
    refine ⟨_, AccessPolicy.combinations_and_eq_ok.2 ⟨ls, rs, hls, hrs, rfl⟩, fun c hc => ?_⟩
    obtain ⟨cl, hcl, cr, hcr, rfl⟩ := AccessPolicy.mem_product.1 hc
    exact List.forall_mem_append.2 ⟨hl cl hcl, hr cr hcr⟩
  | or l r ihl ihr =>
    rw [AccessPolicy.literals, List.forall_mem_append] at h
    obtain ⟨ls, hls, hl⟩ := ihl h.1
    obtain ⟨rs, hrs, hr⟩ := ihr h.2
    exact ⟨_, AccessPolicy.combinations_or_eq_ok.2 ⟨ls, rs, hls, hrs, rfl⟩,
      List.forall_mem_append.2 ⟨hl, hr⟩⟩

/-! ## Current slots -/

/-- The slot is the largest in the history of the attribute. -/
def Newest (r : Registry) (a : Attribute) (slot : Nat) : Prop :=
  slot ∈ r.history a ∧ ∀ other ∈ r.history a, other ≤ slot

theorem history_eq {a : Attribute} {record : AttributeRecord}
    (h : r.attributes.get? a = some record) : r.history a = record.slots := by
  rw [history, h]
  rfl

theorem exists_of_mem_history {a : Attribute} {slot : Nat} (h : slot ∈ r.history a) :
    ∃ record, r.attributes.get? a = some record ∧ slot ∈ record.slots := by
  cases hrecord : r.attributes.get? a with
  | none =>
    rw [history, hrecord] at h
    cases h
  | some record => exact ⟨record, rfl, history_eq hrecord ▸ h⟩

theorem currentSlot_eq_ok {a : Attribute} {record : AttributeRecord} {slot : Nat}
    (h : r.attributes.get? a = some record) (hmax : record.slots.max? = some slot) :
    r.currentSlot a = .ok slot := by
  simp only [currentSlot, Registry.record, h, AttributeRecord.current?, hmax, bind, Except.bind]

theorem hint_eq_ok {a : Attribute} {record : AttributeRecord}
    (h : r.attributes.get? a = some record) : r.hint a = .ok record.hint := by
  simp only [hint, Registry.record, h, Except.map]

namespace Gapless

theorem nodup_issued (h : r.Gapless) : r.issued.Nodup :=
  h.issued.nodup_iff.2 List.nodup_range'

theorem exists_record (h : r.Gapless) {a : Attribute} (ha : r.Lists a) :
    ∃ record, r.attributes.get? a = some record :=
  OrderedMap.contains_iff.1 ((h.registered a).2 ha)

/-- Every listed attribute has a current slot: the largest of its history. -/
theorem exists_currentSlot (h : r.Gapless) {a : Attribute} (ha : r.Lists a) :
    ∃ slot, r.currentSlot a = .ok slot ∧ r.Newest a slot := by
  obtain ⟨record, hrecord⟩ := h.exists_record ha
  have hsome : record.slots.max? ≠ none :=
    mt List.max?_eq_none_iff.1 (h.histories a record hrecord).1
  obtain ⟨slot, hslot⟩ := Option.ne_none_iff_exists'.1 hsome
  refine ⟨slot, currentSlot_eq_ok hrecord hslot, ?_⟩
  rw [Newest, history_eq hrecord]
  exact List.max?_eq_some_iff.1 hslot

/-- No two attributes have the same newest slot. -/
theorem eq_of_newest (h : r.Gapless) {a b : Attribute} {slot : Nat} (ha : r.Newest a slot)
    (hb : r.Newest b slot) : a = b := by
  obtain ⟨p, hp, hslotp⟩ := exists_of_mem_history ha.1
  obtain ⟨q, hq, hslotq⟩ := exists_of_mem_history hb.1
  exact key_eq_of_mem_slots h.nodup_issued hp hq hslotp hslotq

/-- Attributes required together that are all listed have their current slots, each its own. -/
theorem exists_currentSlots (h : r.Gapless) {as : Combination} (has : ∀ a ∈ as, r.Lists a) :
    ∃ slots, r.currentSlots as = .ok slots ∧ List.Forall₂ r.Newest as slots ∧
      ∀ (i j slot : Nat), slots[i]? = some slot → slots[j]? = some slot → as[i]? = as[j]? := by
  obtain ⟨slots, hslots, hnewest⟩ := exists_mapM fun a ha => h.exists_currentSlot (has a ha)
  refine ⟨slots, hslots, hnewest, fun i j slot hi hj => ?_⟩
  obtain ⟨a, ha, hslota⟩ := exists_getElem?_of_forall₂ hnewest hi
  obtain ⟨b, hb, hslotb⟩ := exists_getElem?_of_forall₂ hnewest hj
  rw [ha, hb, h.eq_of_newest hslota hslotb]

theorem exists_joinedHint (h : r.Gapless) {as : Combination} (has : ∀ a ∈ as, r.Lists a) :
    ∃ hint, r.joinedHint as = .ok hint ∧
      (hint = .hybridized ↔ ∃ a ∈ as, r.hint a = .ok .hybridized) := by
  have hhint : ∀ a ∈ as, ∃ hint, r.hint a = .ok hint ∧ r.hint a = .ok hint := by
    intro a ha
    obtain ⟨record, hrecord⟩ := h.exists_record (has a ha)
    exact ⟨record.hint, hint_eq_ok hrecord, hint_eq_ok hrecord⟩
  obtain ⟨hints, hhints, heach⟩ := exists_mapM hhint
  refine ⟨Hint.joinAll hints, ?_, ?_⟩
  · rw [joinedHint, hhints]
    rfl
  · rw [Hint.joinAll_eq_hybridized_iff, mem_iff_of_forall₂ heach]

end Gapless

/-- **A policy over registered attributes resolves in full.** After any run from a new registry it
has combinations, with hierarchies followed or not. Each combination has one current slot for each
of its attributes, the largest in its history; a slot that stands twice stands for the same
attribute; and the combination has a hint, hybridized if that of some attribute in it is. -/
theorem combinations_resolve {maximum : Int} {start : Registry}
    (h : Registry.new maximum = .ok start) (ops : List Operation) {t : AccessPolicy}
    (ht : ∀ a ∈ t.literals, a ∈ (start.run ops).attributes.keys) (follow : Bool) :
    ∃ cs, t.combinations (start.run ops).axes follow = .ok cs ∧ ∀ as ∈ cs,
      (∃ slots, (start.run ops).currentSlots as = .ok slots ∧
        List.Forall₂ (start.run ops).Newest as slots ∧
        ∀ (i j slot : Nat), slots[i]? = some slot → slots[j]? = some slot → as[i]? = as[j]?) ∧
      ∃ hint, (start.run ops).joinedHint as = .ok hint ∧
        (hint = .hybridized ↔ ∃ a ∈ as, (start.run ops).hint a = .ok .hybridized) := by
  obtain ⟨-, -, rfl⟩ := new_eq_ok.1 h
  have hg := (Gapless.empty maximum.toNat).run ops
  have hlists : ∀ a ∈ t.literals, ((Registry.empty maximum.toNat).run ops).Lists a := fun a ha =>
    (hg.registered a).1 (OrderedMap.contains_iff.2 (OrderedMap.mem_keys_iff.1 (ht a ha)))
  obtain ⟨cs, hcs, hmem⟩ := exists_combinations hlists follow
  exact ⟨cs, hcs, fun as has =>
    ⟨hg.exists_currentSlots (hmem as has), hg.exists_joinedHint (hmem as has)⟩⟩

/-- The lower rank was rotated and comes in through the hierarchy; the literal stands twice. -/
theorem combinations_resolve_ranked :
    let low : Attribute := ⟨"L".toText, "1".toText⟩
    let high : Attribute := ⟨"L".toText, "2".toText⟩
    let ops : List Operation :=
      [.addAxis ⟨"L".toText, [("1".toText, .hybridized), ("2".toText, .classic)], true⟩,
        .rotate low]
    let t : AccessPolicy := .and (.attr high) (.or (.attr high) .all)
    let r := (empty 3).run ops
    Registry.new 3 = .ok (empty 3) ∧ (∀ a ∈ t.literals, a ∈ r.attributes.keys) ∧
      r.history low = [1, 3] ∧ r.currentSlots [low, high] = .ok [3, 2] ∧
      List.Forall₂ r.Newest [low, high] [3, 2] ∧ r.joinedHint [low, high] = .ok .hybridized := by
  intro low high ops t r
  have hnew : Registry.new 3 = .ok (empty 3) := rfl
  have hkeys : ∀ a ∈ t.literals, a ∈ r.attributes.keys := by decide
  obtain ⟨cs, hcs, hall⟩ := combinations_resolve hnew ops hkeys true
  have hmem : [low, high] ∈ cs := by
    cases hcs
    decide
  obtain ⟨⟨slots, hslots, hnewest, -⟩, hint, hhint, hiff⟩ := hall _ hmem
  have hcurrent : r.currentSlots [low, high] = .ok [3, 2] := rfl
  have heq : slots = [3, 2] := Except.ok.inj (hslots.symm.trans hcurrent)
  have hhybridized : hint = .hybridized := hiff.2 ⟨low, List.mem_cons_self, rfl⟩
  exact ⟨hnew, hkeys, by decide, hcurrent, heq ▸ hnewest, hhybridized ▸ hhint⟩

end Registry

end AttributeAccess
