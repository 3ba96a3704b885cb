import AttributeAccess.Proofs.Registry.Persistence

/-!
# No slot is issued twice

The life of a registry is a sequence of steps: operations, and reloads from its own text. Whatever
document it started from, its slots are distinct and within its counters (`Counted`), and every
step keeps that (`Counted.next`). All that a step does is said by `Grows`: it issues the slots that
follow the last one. The last one never decreases, so a slot that was ever held is smaller than any
issued later (`issued_once`).
-/

namespace AttributeAccess.Registry

/-- Distinct slots, none beyond the last one, which is within the maximum. -/
structure Counted (r : Registry) : Prop where
  distinct : r.issued.Nodup
  le_last : ∀ slot ∈ r.issued, slot ≤ r.last
  last_le : r.last ≤ r.maximum
  maximum_le : r.maximum ≤ slotMaximum

/-- Where a registry comes from: it is new, or it was read from a document of either layout. -/
inductive Origin : Registry → Prop
  | new {maximum : Int} {r : Registry} (h : Registry.new maximum = .ok r) : Origin r
  | document {p : Payload} {r : Registry} (h : decode p = .ok r) : Origin r

inductive Step where
  | operation (op : Operation)
  | reload
deriving DecidableEq, Repr

/-- The registry read from its own text, unless it cannot be written or read. -/
def reloaded? (r : Registry) : Option Registry :=
  r.encode.toOption.bind fun t => (decode (.text t)).toOption

/-- The registry after a step; a step that fails leaves it as it was. -/
def next (r : Registry) : Step → Registry
  | .operation op => r.after op
  | .reload => r.reloaded?.getD r

def through (r : Registry) (steps : List Step) : Registry :=
  steps.foldl next r

/-- The slots that a step issues: those of the attributes of an axis that was added, and those
that a rotation appends to a history. -/
def issuedBy (r : Registry) : Step → List Nat
  | .operation op =>
    match op, r.apply op with
    | .addAxis axis, .ok s => axis.names.flatMap fun name => s.history ⟨axis.name, name⟩
    | .rotate a, .ok s => (s.history a).drop (r.history a).length
    | _, .error _ => []
  | .reload => []

/-! ## Origins -/

namespace Counted

variable {r s : Registry}

/-- Losing slots does no harm. -/
theorem of_subperm {slots : List Nat} (hsub : r.issued.Subperm slots) (hd : slots.Nodup)
    (hle : ∀ slot ∈ slots, slot ≤ r.last) (hlast : r.last ≤ r.maximum)
    (hmax : r.maximum ≤ slotMaximum) : r.Counted where
  distinct := by
    obtain ⟨kept, hperm, hsub⟩ := hsub
    exact hperm.nodup (hsub.nodup hd)
  le_last := fun slot hs => hle slot (hsub.subset hs)
  last_le := hlast
  maximum_le := hmax

theorem new {maximum : Int} (h : Registry.new maximum = .ok r) : r.Counted := by
  obtain ⟨hpos, hmax, rfl⟩ := new_eq_ok.1 h
  refine of_subperm (.refl _) List.nodup_nil (fun slot hs => ?_) (Nat.zero_le _) ?_
  · cases hs
  · show maximum.toNat ≤ slotMaximum
    omega

theorem decode {p : Payload} (h : Registry.decode p = .ok r) : r.Counted := by
  obtain ⟨d, hd, rfl⟩ := decode_eq_ok.1 h
  obtain ⟨v, -, hfits, hcons⟩ := Document.decode_eq_ok.1 hd
  refine of_subperm (issued_ofDocument d) hcons.slots.2 ?_ ?_ ?_
  · rw [last_ofDocument]
    exact hcons.slots.1
  · rw [last_ofDocument, maximum_ofDocument]
    exact hcons.last_le
  · rw [maximum_ofDocument]
    exact hfits.maximum_le

theorem origin (h : Origin r) : r.Counted := by
  cases h with
  | new h => exact .new h
  | document h => exact .decode h

/-- New slots in a row after the last one. -/
theorem grow {count : Nat} (hr : r.Counted)
    (hsub : s.issued.Subperm (r.issued ++ List.range' (r.last + 1) count))
    (hlast : s.last = r.last + count) (hle : s.last ≤ s.maximum) (hmax : s.maximum = r.maximum) :
    s.Counted := by
  refine of_subperm hsub ?_ ?_ hle (hmax ▸ hr.maximum_le)
  · refine List.nodup_append.2 ⟨hr.distinct, List.nodup_range', ?_⟩
    rintro old hold new hnew rfl
    have := hr.le_last old hold
    rw [List.mem_range'_1] at hnew
    omega
  · intro slot hslot
    rcases List.mem_append.1 hslot with hold | hnew
    · have := hr.le_last slot hold
      omega
    · rw [List.mem_range'_1] at hnew
      omega

end Counted

/-! ## One step -/

/-- All that a step does to the slots: `count` of them are issued, those after the last one. -/
structure Grows (r : Registry) (step : Step) (count : Nat) : Prop where
  last : (r.next step).last = r.last + count
  maximum : (r.next step).maximum = r.maximum
  last_le : (r.next step).last ≤ (r.next step).maximum
  issuedBy : r.issuedBy step = List.range' (r.last + 1) count
  issued : (r.next step).issued.Subperm (r.issued ++ r.issuedBy step)

namespace Grows

variable {r s : Registry}

/-- A step that changes neither counter and adds no slot issues none. -/
theorem still {step : Step} (hr : r.Counted) (hlast : (r.next step).last = r.last)
    (hmax : (r.next step).maximum = r.maximum) (hissued : (r.next step).issued.Subperm r.issued)
    (hnone : r.issuedBy step = []) : r.Grows step 0 where
  last := hlast
  maximum := hmax
  last_le := by
    rw [hlast, hmax]
    exact hr.last_le
  issuedBy := hnone
  issued := by
    rw [hnone, List.append_nil]
    exact hissued

theorem addAxis {axis : Axis} (hr : r.Counted) (h : r.addAxis axis = .ok s) :
    r.Grows (.operation (.addAxis axis)) axis.size := by
  have hnext : r.next (.operation (.addAxis axis)) = s := by
    simp [next, after, apply, h]
  obtain ⟨-, hd, hsize, hs⟩ := addAxis_eq_ok.1 h
  have hissued : r.issuedBy (.operation (.addAxis axis)) = List.range' (r.last + 1) axis.size := by
    have hlist : r.issuedBy (.operation (.addAxis axis)) =
        axis.names.flatMap fun name => s.history ⟨axis.name, name⟩ := by
      simp [Registry.issuedBy, apply, h]
    rw [hlist, hs]
    exact flatMap_issue r.last hd r.attributes
  refine ⟨?_, ?_, ?_, hissued, ?_⟩
  · rw [hnext, hs]
  · rw [hnext, hs]
  · have := hr.last_le
    rw [hnext, hs]
    simp only [remaining] at hsize ⊢
    omega
  · rw [hissued, hnext, hs]
    exact slotsIn_issue_subperm axis.name axis.properties r.last r.attributes

theorem rotate {a : Attribute} (h : r.rotate a = .ok s) :
    r.Grows (.operation (.rotate a)) 1 := by
  have hnext : r.next (.operation (.rotate a)) = s := by
    simp [next, after, apply, h]
  obtain ⟨hlt, record, ha, hs⟩ := rotate_eq_ok.1 h
  have hissued : r.issuedBy (.operation (.rotate a)) = [r.last + 1] := by
    have hlist : r.issuedBy (.operation (.rotate a)) =
        (s.history a).drop (r.history a).length := by
      simp [Registry.issuedBy, apply, h]
    rw [hlist, hs]
    simp [history, OrderedMap.get?_put, ha]
  refine ⟨?_, ?_, ?_, hissued, ?_⟩
  · rw [hnext, hs]
  · rw [hnext, hs]
  · rw [hnext, hs]
    exact hlt
  · rw [hissued, hnext, hs]
    exact (slotsIn_put_extended ha [r.last + 1] record.hint).subperm

theorem refused {op : Operation} {e : Fault} (hr : r.Counted) (h : r.apply op = .error e) :
    r.Grows (.operation op) 0 := by
  have hnext : r.next (.operation op) = r := by
    simp [next, after, h]
  have hnone : r.issuedBy (.operation op) = [] := by
    cases op <;> simp [Registry.issuedBy, h]
  refine still hr ?_ ?_ ?_ hnone
  · rw [hnext]
  · rw [hnext]
  · rw [hnext]

/-- What is read of the text of a registry keeps the counters, and no slot of it is new. -/
theorem reload (hr : r.Counted) : r.Grows .reload 0 := by
  have hkept : r.next .reload = r ∨ r.next .reload = ofCurrent r.toDocument.replaced := by
    cases ht : r.encode with
    | error f => exact .inl (by simp [next, reloaded?, ht, Except.toOption])
    | ok t =>
      cases hread : Registry.decode (.text t) with
      | error f => exact .inl (by simp [next, reloaded?, ht, hread, Except.toOption])
      | ok s =>
        refine .inr ?_
        rw [← eq_of_decode_encode ht hr.maximum_le hread]
        simp [next, reloaded?, ht, hread, Except.toOption]
  rcases hkept with hnext | hnext
  · exact still hr (by rw [hnext]) (by rw [hnext]) (by rw [hnext]) rfl
  · refine still hr ?_ ?_ ?_ rfl
    · rw [hnext]
      rfl
    · rw [hnext]
      rfl
    · rw [hnext]
      exact issued_ofCurrent_replaced r

theorem step (hr : r.Counted) (step : Step) : ∃ count, r.Grows step count := by
  cases step with
  | reload => exact ⟨0, reload hr⟩
  | operation op =>
    cases h : r.apply op with
    | error e => exact ⟨0, refused hr h⟩
    | ok s =>
      cases op with
      | addAxis axis => exact ⟨axis.size, addAxis hr h⟩
      | rotate a => exact ⟨1, rotate h⟩

end Grows

/-! ## Every life -/

namespace Counted

variable {r : Registry}

theorem next (hr : r.Counted) (step : Step) : (r.next step).Counted := by
  obtain ⟨count, h⟩ := Grows.step hr step
  exact hr.grow (h.issuedBy ▸ h.issued) h.last h.last_le h.maximum

theorem through (hr : r.Counted) (steps : List Step) : (r.through steps).Counted := by
  induction steps generalizing r with
  | nil => exact hr
  | cons step steps ih => exact ih (hr.next step)

theorem last_le_through (hr : r.Counted) (steps : List Step) :
    r.last ≤ (r.through steps).last := by
  induction steps generalizing r with
  | nil => exact Nat.le_refl _
  | cons step steps ih =>
    obtain ⟨count, h⟩ := Grows.step hr step
    have hstep : r.last ≤ (r.next step).last := by
      rw [h.last]
      omega
    exact hstep.trans (ih (hr.next step))

theorem maximum_through (hr : r.Counted) (steps : List Step) :
    (r.through steps).maximum = r.maximum := by
  induction steps generalizing r with
  | nil => rfl
  | cons step steps ih =>
    obtain ⟨count, h⟩ := Grows.step hr step
    exact (ih (hr.next step)).trans h.maximum

end Counted

theorem through_append (r : Registry) (steps later : List Step) :
    r.through (steps ++ later) = (r.through steps).through later :=
  List.foldl_append

/-- **No slot is ever issued twice.** In every state of a life the slots are distinct and within
the counters, and the maximum is the first one. The next step issues the slots that follow the
last one, holds no others than these and the slots it found, and each of them exceeds every slot
held in this or an earlier state. -/
theorem issued_once {start : Registry} (h : Origin start) (steps : List Step) (step : Step) :
    (start.through steps).Counted ∧
    (start.through steps).maximum = start.maximum ∧
    (start.through steps).last ≤ (start.through (steps ++ [step])).last ∧
    (start.through steps).issuedBy step = List.range' ((start.through steps).last + 1)
      ((start.through (steps ++ [step])).last - (start.through steps).last) ∧
    (∀ slot ∈ (start.through (steps ++ [step])).issued,
      slot ∈ (start.through steps).issued ∨ slot ∈ (start.through steps).issuedBy step) ∧
    ∀ earlier, earlier <+: steps → ∀ old ∈ (start.through earlier).issued,
      ∀ slot ∈ (start.through steps).issuedBy step, old < slot := by
  have hstart := Counted.origin h
  have hr := hstart.through steps
  obtain ⟨count, hg⟩ := Grows.step hr step
  have hnext : start.through (steps ++ [step]) = (start.through steps).next step :=
    through_append start steps [step]
  refine ⟨hr, hstart.maximum_through steps, ?_, ?_, ?_, ?_⟩
  · rw [hnext, hg.last]
    omega
  · rw [hnext, hg.issuedBy, hg.last, Nat.add_sub_cancel_left]
  · intro slot hslot
    rw [hnext] at hslot
    exact List.mem_append.1 (hg.issued.subset hslot)
  · -- an earlier state had its slots up to its last one, which has not decreased since
    rintro earlier ⟨later, rfl⟩ old hold slot hslot
    have hle := (hstart.through earlier).le_last old hold
    have hmono := (hstart.through earlier).last_le_through later
    rw [← through_append] at hmono
    rw [hg.issuedBy, List.mem_range'_1] at hslot
    omega

/-- A document with a gap, a history out of order and an empty one; then a reload, a rotation and
an axis that takes the last slot. -/
theorem issued_once_from_document :
    let d : CurrentDocument := ⟨5, 7, .ofList [("A".toText, ⟨["x".toText, "y".toText], false⟩)],
      .ofList [("A::x".toText, ⟨[5, 2], .classic⟩), ("A::y".toText, ⟨[], .hybridized⟩)]⟩
    let steps : List Step := [.reload, .operation (.rotate ⟨"A".toText, "y".toText⟩)]
    let step : Step := .operation (.addAxis ⟨"B".toText, [("z".toText, .classic)], true⟩)
    decode (.text d.toJson.compact) = .ok (ofCurrent d) ∧ (ofCurrent d).issued = [5, 2] ∧
      ((ofCurrent d).through steps).issuedBy step = [7] ∧
      ∀ old ∈ (ofCurrent d).issued, ∀ slot ∈ ((ofCurrent d).through steps).issuedBy step,
        old < slot := by
  intro d steps step
  have hread : decode (.text d.toJson.compact) = .ok (ofCurrent d) := by
    unfold decode
    rw [Document.decode_toJson rfl (by decide) (by decide)]
    rfl
  refine ⟨hread, by decide, by decide +kernel, ?_⟩
  exact (issued_once (.document hread) steps step).2.2.2.2.2 [] (List.nil_prefix)

end AttributeAccess.Registry
