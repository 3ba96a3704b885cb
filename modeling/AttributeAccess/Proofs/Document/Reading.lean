import AttributeAccess.Document.Consistency
import AttributeAccess.Proofs.OrderedMap
import Mathlib.Data.List.Forall2

/-!
# What a reading accepts

One equivalence for each way of reading: when it gives a value, and which. They open the readings
of documents in both directions, so a document that was read is known field by field
(`required_eq_ok`, `entriesOf_eq_ok`), and one that was written is read by naming its fields.
-/

namespace AttributeAccess

variable {α β : Type}

/-- What stands on the right of a pointwise relation is related to something on the left. -/
theorem exists_mem_of_forall₂ {R : α → β → Prop} {as : List α} {bs : List β}
    (h : List.Forall₂ R as bs) {b : β} (hb : b ∈ bs) : ∃ a ∈ as, R a b := by
  induction h with
  | nil => cases hb
  | cons hR _ ih =>
    rcases List.mem_cons.1 hb with rfl | hb
    · exact ⟨_, List.mem_cons_self, hR⟩
    · obtain ⟨a, ha, hR⟩ := ih hb
      exact ⟨a, List.mem_cons_of_mem _ ha, hR⟩

namespace Reading

@[simp] theorem refuse_eq_ok {kind : IssueKind} {a : α} : refuse kind = .ok a ↔ False := by
  unfold refuse
  simp

@[simp] theorem both_eq_ok {r : Reading α} {s : Reading β} {p : α × β} :
    r.both s = .ok p ↔ r = .ok p.1 ∧ s = .ok p.2 := by
  obtain ⟨a, b⟩ := p
  cases r <;> cases s <;> simp [both]

@[simp] theorem map_eq_ok {r : Reading α} {f : α → β} {b : β} :
    r.map f = .ok b ↔ ∃ a, r = .ok a ∧ f a = b := by
  cases r <;> simp [Except.map]

@[simp] theorem bind_eq_ok {r : Reading α} {f : α → Reading β} {b : β} :
    r.bind f = .ok b ↔ ∃ a, r = .ok a ∧ f a = .ok b := by
  cases r <;> simp [Except.bind]

@[simp] theorem under_eq_ok {step : PathStep} {r : Reading α} {a : α} :
    r.under step = .ok a ↔ r = .ok a := by
  unfold under
  cases r <;> simp [Except.mapError]

/-! ## Scalars -/

theorem within_eq_ok {maximum : Nat} {i : Int} {n : Nat} :
    within maximum i = .ok n ↔ i = n ∧ n ≤ maximum := by
  unfold within
  by_cases hneg : i < 0
  · rw [if_pos hneg]
    simp only [refuse_eq_ok, false_iff]
    omega
  · rw [if_neg hneg]
    by_cases hmax : (maximum : Int) < i
    · rw [if_pos hmax]
      simp only [refuse_eq_ok, false_iff]
      omega
    · rw [if_neg hmax, Except.ok.injEq]
      omega

theorem slot_eq_ok {v : Json} {n : Nat} : slot v = .ok n ↔ v = .ofNat n ∧ n ≤ slotMaximum := by
  cases v with
  | number k => cases k <;> simp [slot, Json.ofNat, within_eq_ok]
  | _ => simp [slot, Json.ofNat]

theorem badName?_eq_none_iff {t : Text} : badName? t = none ↔ t.WellFormed ∧ t ≠ [] := by
  unfold badName?
  by_cases h : t.WellFormed <;> simp [h]

theorem name_eq_ok {v : Json} {t : Text} :
    name v = .ok t ↔ v = .string t ∧ t.WellFormed ∧ t ≠ [] := by
  cases v with
  | string u =>
    rw [name, Json.string.injEq, ← badName?_eq_none_iff]
    cases hbad : badName? u with
    | some kind =>
      simp only [refuse_eq_ok, false_iff]
      rintro ⟨rfl, hnone⟩
      rw [hbad] at hnone
      cases hnone
    | none =>
      simp only [Except.ok.injEq, iff_self_and]
      rintro rfl
      exact hbad
  | _ => simp [name]

theorem text_eq_ok {v : Json} {t : Text} : text v = .ok t ↔ v = .string t := by
  cases v <;> simp [text]

theorem boolean_eq_ok {v : Json} {b : Bool} : boolean v = .ok b ↔ v = .bool b := by
  cases v <;> simp [boolean]

theorem hint_eq_ok {v : Json} {h : Hint} : hint v = .ok h ↔ v = .string h.name := by
  cases v with
  | string t =>
    rw [Json.string.injEq, ← Hint.ofName?_eq_some_iff, hint]
    cases Hint.ofName? t <;> simp
  | _ => simp [hint]

theorem hint_name (h : Hint) : hint (.string h.name) = .ok h :=
  hint_eq_ok.2 rfl

/-! ## Arrays and maps -/

theorem all_eq_ok {rs : List (Reading α)} {as : List α} :
    all rs = .ok as ↔ List.Forall₂ (fun r a => r = .ok a) rs as := by
  induction rs generalizing as with
  | nil => simp [all, eq_comm]
  | cons r rs ih =>
    unfold all
    rw [map_eq_ok]
    constructor
    · rintro ⟨⟨a, as'⟩, hp, rfl⟩
      obtain ⟨hr, hrs⟩ := both_eq_ok.1 hp
      exact .cons hr (ih.1 hrs)
    · intro h
      cases h with
      | @cons _ a _ as' hr hrs => exact ⟨(a, as'), both_eq_ok.2 ⟨hr, ih.2 hrs⟩, rfl⟩

theorem indexed_eq_ok {read : Json → Reading α} {n : Nat} {vs : List Json} {as : List α} :
    all (indexed read n vs) = .ok as ↔ List.Forall₂ (fun v a => read v = .ok a) vs as := by
  rw [all_eq_ok]
  induction vs generalizing n as with
  | nil => simp [indexed]
  | cons v vs ih =>
    unfold indexed
    cases as with
    | nil => simp
    | cons a as => simp [ih]

theorem listOf_eq_ok {read : Json → Reading α} {v : Json} {as : List α} :
    listOf read v = .ok as ↔
      ∃ vs, v = .array vs ∧ List.Forall₂ (fun v a => read v = .ok a) vs as := by
  cases v <;> simp [listOf, indexed_eq_ok]

/-- What was written item by item is read item by item. -/
theorem listOf_map {read : Json → Reading α} {write : α → Json} {as : List α}
    (h : ∀ a ∈ as, read (write a) = .ok a) : listOf read (.array (as.map write)) = .ok as := by
  rw [listOf_eq_ok]
  refine ⟨_, rfl, ?_⟩
  rw [List.forall₂_map_left_iff, List.forall₂_same]
  exact h

/-- Where only what was written is read, so it is with lists. -/
theorem listOf_eq_ok_map {read : Json → Reading α} {write : α → Json} {P : α → Prop}
    (h : ∀ v a, read v = .ok a ↔ v = write a ∧ P a) {v : Json} {as : List α} :
    listOf read v = .ok as ↔ v = .array (as.map write) ∧ ∀ a ∈ as, P a := by
  have hitems : ∀ vs : List Json, List.Forall₂ (fun v a => read v = .ok a) vs as ↔
      vs = as.map write ∧ ∀ a ∈ as, P a := by
    simp only [h]
    induction as with
    | nil => simp
    | cons a as ih =>
      intro vs
      simp only [List.forall₂_cons_right_iff, ih, List.forall_mem_cons, List.map_cons]
      constructor
      · rintro ⟨v, vs, ⟨rfl, ha⟩, ⟨rfl, has⟩, rfl⟩
        exact ⟨rfl, ha, has⟩
      · rintro ⟨rfl, ha, has⟩
        exact ⟨write a, as.map write, ⟨rfl, ha⟩, ⟨rfl, has⟩, rfl⟩
  rw [listOf_eq_ok]
  constructor
  · rintro ⟨vs, rfl, hvs⟩
    obtain ⟨rfl, has⟩ := (hitems vs).1 hvs
    exact ⟨rfl, has⟩
  · rintro ⟨rfl, has⟩
    exact ⟨_, rfl, (hitems _).2 ⟨rfl, has⟩⟩

theorem texts_eq_ok {v : Json} {ts : List Text} :
    listOf text v = .ok ts ↔ v = .array (ts.map .string) := by
  have htext : ∀ (v : Json) (t : Text), text v = .ok t ↔ v = .string t ∧ True := by
    simp [text_eq_ok]
  simp [listOf_eq_ok_map htext]

theorem slots_eq_ok {v : Json} {slots : List Nat} :
    listOf slot v = .ok slots ↔
      v = .array (slots.map .ofNat) ∧ ∀ slot ∈ slots, slot ≤ slotMaximum :=
  listOf_eq_ok_map fun _ _ => slot_eq_ok

theorem entriesOf_eq_ok {read : Json → Reading α} {v : Json} {m : OrderedMap Text α} :
    entriesOf read v = .ok m ↔
      ∃ ms es, v = .object ms ∧ List.Forall₂ (fun e e' => e'.1 = e.1 ∧ read e.2 = .ok e'.2) ms es ∧
        m = OrderedMap.ofList es := by
  cases v with
  | object ms =>
    have hentry : ∀ (e : Text × Json) (e' : Text × α),
        (((read e.2).under (.key e.1)).map fun a => (e.1, a)) = .ok e' ↔
          e'.1 = e.1 ∧ read e.2 = .ok e'.2 := by
      rintro ⟨key, v⟩ ⟨key', a⟩
      rw [map_eq_ok]
      constructor
      · rintro ⟨b, hb, heq⟩
        cases heq
        exact ⟨rfl, under_eq_ok.1 hb⟩
      · rintro ⟨rfl, ha⟩
        exact ⟨a, under_eq_ok.2 ha, rfl⟩
    unfold entriesOf
    rw [map_eq_ok]
    simp only [all_eq_ok, List.forall₂_map_left_iff, hentry]
    constructor
    · rintro ⟨es, hes, rfl⟩
      exact ⟨ms, es, rfl, hes, rfl⟩
    · rintro ⟨ms', es, heq, hes, rfl⟩
      cases heq
      exact ⟨es, hes, rfl⟩
  | _ => simp [entriesOf]

/-! ## Fields -/

theorem required_eq_ok {fields : Fields} {name : Text} {read : Json → Reading α} {a : α} :
    required fields name read = .ok a ↔ ∃ v, fields.get? name = some v ∧ read v = .ok a := by
  unfold required
  cases fields.get? name <;> simp

theorem only_eq_ok {declared : List Text} {fields : Fields} :
    only declared fields = .ok () ↔ ∀ name ∈ fields.keys, name ∈ declared := by
  unfold only
  cases h : fields.keys.filter (· ∉ declared) with
  | nil => simpa [List.filter_eq_nil_iff] using h
  | cons name names =>
    simp only [reduceCtorEq, false_iff]
    intro hall
    have hmem : name ∈ fields.keys.filter (· ∉ declared) := h ▸ List.mem_cons_self
    rw [List.mem_filter] at hmem
    exact of_decide_eq_true hmem.2 (hall name hmem.1)

theorem fields_eq_ok {v : Json} {fs : Fields} :
    fields v = .ok fs ↔ ∃ ms, v = .object ms ∧ fs = OrderedMap.ofList ms := by
  cases v with
  | object ms => simp [fields, eq_comm]
  | _ => simp [fields]

theorem record_eq_ok {declared : List Text} {read : Fields → Reading α} {v : Json} {a : α} :
    record declared read v = .ok a ↔
      ∃ ms, v = .object ms ∧ read (OrderedMap.ofList ms) = .ok a ∧
        ∀ name ∈ (OrderedMap.ofList ms).keys, name ∈ declared := by
  show ((fields v).bind fun fs => ((read fs).both (only declared fs)).map Prod.fst) = .ok a ↔ _
  rw [bind_eq_ok]
  simp only [fields_eq_ok, map_eq_ok, both_eq_ok]
  constructor
  · rintro ⟨_, ⟨ms, rfl, rfl⟩, ⟨a, ⟨⟩⟩, ⟨hread, honly⟩, rfl⟩
    exact ⟨ms, rfl, hread, only_eq_ok.1 honly⟩
  · rintro ⟨ms, rfl, hread, honly⟩
    exact ⟨_, ⟨ms, rfl, rfl⟩, (a, ()), ⟨hread, only_eq_ok.2 honly⟩, rfl⟩

end Reading

/-! ## Consistency -/

namespace Consistency

theorem approve_eq_ok {α : Type} {wrong : Option Inconsistency} {a b : α} :
    approve wrong a = .ok b ↔ wrong = none ∧ a = b := by
  unfold approve
  cases wrong <;> simp

/-- What was read and then approved is what was read, with nothing wrong. -/
theorem bind_approve_eq_ok {α : Type} {r : Reading α} {wrong? : α → Option Inconsistency} {a : α} :
    (r.bind fun a => approve (wrong? a) a) = .ok a ↔ r = .ok a ∧ wrong? a = none := by
  rw [Reading.bind_eq_ok]
  simp only [approve_eq_ok]
  constructor
  · rintro ⟨a', hr, hw, rfl⟩
    exact ⟨hr, hw⟩
  · rintro ⟨hr, hw⟩
    exact ⟨a, hr, hw, rfl⟩

theorem badSlot?_eq_none {last : Nat} {seen slots : List Nat} :
    badSlot? last seen slots = none ↔
      slots.Nodup ∧ ∀ slot ∈ slots, slot ≤ last ∧ slot ∉ seen := by
  induction slots generalizing seen with
  | nil => simp [badSlot?]
  | cons slot slots ih =>
    rw [badSlot?]
    by_cases hlast : last < slot
    · simp [hlast, Nat.not_le.2 hlast]
    · by_cases hseen : slot ∈ seen
      · simp [hlast, hseen]
      · rw [if_neg hlast, if_neg hseen, ih, List.nodup_cons]
        simp only [List.mem_cons, not_or, forall_eq_or_imp]
        constructor
        · rintro ⟨hd, hall⟩
          refine ⟨⟨fun hmem => (hall slot hmem).2.1 rfl, hd⟩, ⟨Nat.not_lt.1 hlast, hseen⟩, ?_⟩
          exact fun s hs => ⟨(hall s hs).1, (hall s hs).2.2⟩
        · rintro ⟨⟨hnew, hd⟩, -, hall⟩
          exact ⟨hd, fun s hs => ⟨(hall s hs).1, fun he => hnew (he ▸ hs), (hall s hs).2⟩⟩

theorem badCounters?_eq_none {last maximum : Nat} {slots : List Nat} :
    badCounters? last maximum slots = none ↔
      last ≤ maximum ∧ slots.Nodup ∧ ∀ slot ∈ slots, slot ≤ last := by
  unfold badCounters?
  by_cases h : maximum < last
  · simp [h, Nat.not_le.2 h]
  · simp [h, Nat.not_lt.1 h, badSlot?_eq_none]

theorem malformedKey?_eq_none {keys : List Text} :
    malformedKey? keys = none ↔ ∀ key ∈ keys, (Attribute.ofText? key).isSome = true := by
  unfold malformedKey?
  simp [List.find?_eq_none, ← Option.isSome_iff_ne_none]

theorem mem_listed {axes : Axes} {t : Text} :
    t ∈ listed axes ↔ ∃ axis record, axes.get? axis = some record ∧
      ∃ name ∈ record.names, Attribute.text ⟨axis, name⟩ = t := by
  simp [listed, OrderedMap.get?_eq_some_iff]

theorem eraseDups_filter_eq_nil {ts us : List Text} :
    (ts.filter (· ∉ us)).eraseDups = [] ↔ ∀ t ∈ ts, t ∈ us := by
  simp [List.eq_nil_iff_forall_not_mem]

/-- No axis repeats a name, and the axes list the texts that are keys. -/
theorem badAxes?_eq_none {axes : Axes} {keys : List Text} :
    badAxes? axes keys = none ↔
      (∀ axis record, axes.get? axis = some record → record.names.Nodup) ∧
      ∀ t, t ∈ listed axes ↔ t ∈ keys := by
  unfold badAxes?
  split
  · next axis record hfind =>
    have hrepeats : ¬ record.names.Nodup := by simpa using List.find?_some hfind
    have hget := OrderedMap.get?_eq_some_iff.2 (List.mem_of_find?_eq_some hfind)
    simp only [reduceCtorEq, false_iff]
    exact fun h => hrepeats (h.1 axis record hget)
  · next hfind =>
    have hdistinct : ∀ axis record, axes.get? axis = some record → record.names.Nodup := by
      intro axis record hget
      simpa using List.find?_eq_none.1 hfind _ (OrderedMap.get?_eq_some_iff.1 hget)
    have hboth : (∀ t, t ∈ listed axes ↔ t ∈ keys) ↔
        ((listed axes).filter (· ∉ keys)).eraseDups = [] ∧ keys.filter (· ∉ listed axes) = [] := by
      rw [eraseDups_filter_eq_nil, List.filter_eq_nil_iff]
      simp [iff_iff_implies_and_implies, forall_and]
    rw [and_iff_right hdistinct, hboth]
    cases ((listed axes).filter (· ∉ keys)).eraseDups with
    | cons t ts => simp
    | nil => cases keys.filter (· ∉ listed axes) <;> simp

end Consistency

end AttributeAccess
