import AttributeAccess.Proofs.OrderedMap
import AttributeAccess.Registry.Basic
import Mathlib.Data.List.Pairwise
import Mathlib.Data.List.Perm.Subperm

/-!
# Runs of a registry

A registry grows by operations; one that is refused leaves it as it was. `addAxis_eq_ok` and
`rotate_eq_ok` say all that a successful operation requires and does, so proofs about runs need
not open the operations again. `get?_issue` and `slotsIn_issue` follow the slots that a new axis
takes, and `run_induction` carries what every successful operation keeps over a whole run.
-/

namespace AttributeAccess

/-- The slots of all the records of a map, in its order. -/
def slotsIn {κ : Type} (m : OrderedMap κ AttributeRecord) : List Nat :=
  m.values.flatMap (·.slots)

inductive Operation where
  | addAxis (axis : Axis)
  | rotate (a : Attribute)
deriving DecidableEq, Repr

namespace Registry

def apply (r : Registry) : Operation → Except Fault Registry
  | .addAxis axis => r.addAxis axis
  | .rotate a => r.rotate a

/-- The registry after an operation; one that is refused leaves it as it was. -/
def after (r : Registry) (op : Operation) : Registry :=
  match r.apply op with
  | .ok s => s
  | .error _ => r

def run (r : Registry) (ops : List Operation) : Registry :=
  ops.foldl after r

/-- Every slot that some attribute holds. -/
def issued (r : Registry) : List Nat :=
  slotsIn r.attributes

/-- The slots of an attribute in the order they were issued; none if it is unknown. -/
def history (r : Registry) (a : Attribute) : List Nat :=
  ((r.attributes.get? a).map AttributeRecord.slots).getD []

/-- An axis of the registry lists the name of the attribute. -/
def Lists (r : Registry) (a : Attribute) : Prop :=
  ∃ record, r.axes.get? a.axis = some record ∧ a.name ∈ record.names

/-- The attributes of a new axis in order, with the records that they start with: the slots after
`last`, one to each. -/
def firstRecords (axis : Text) (last : Nat) (properties : List (Text × Hint)) :
    List (Attribute × AttributeRecord) :=
  properties.mapIdx fun i property => (⟨axis, property.1⟩, ⟨[last + (i + 1)], property.2⟩)

theorem run_append (r : Registry) (ops later : List Operation) :
    r.run (ops ++ later) = (r.run ops).run later :=
  List.foldl_append

theorem after_eq (r : Registry) (op : Operation) :
    r.after op = r ∨ r.apply op = .ok (r.after op) := by
  unfold after
  cases h : r.apply op with
  | ok s => exact .inr rfl
  | error e => exact .inl rfl

theorem after_of_apply {r s : Registry} {op : Operation} (h : r.apply op = .ok s) :
    r.after op = s := by
  unfold after
  rw [h]

theorem after_of_refused {r : Registry} {op : Operation} {e : Fault} (h : r.apply op = .error e) :
    r.after op = r := by
  unfold after
  rw [h]

/-- What every successful operation keeps, a run keeps. -/
theorem run_induction {P : Registry → Prop}
    (step : ∀ {r s : Registry} {op : Operation}, r.apply op = .ok s → P r → P s)
    {r : Registry} (h : P r) (ops : List Operation) : P (r.run ops) := by
  induction ops generalizing r with
  | nil => exact h
  | cons op ops ih =>
    apply ih
    rcases after_eq r op with he | he
    · rwa [he]
    · exact step he h

/-! ## Slots of a map -/

section
variable {κ : Type}

theorem mem_slotsIn [DecidableEq κ] {m : OrderedMap κ AttributeRecord} {slot : Nat} :
    slot ∈ slotsIn m ↔ ∃ k record, m.get? k = some record ∧ slot ∈ record.slots := by
  simp only [slotsIn, List.mem_flatMap, OrderedMap.mem_values_iff]
  constructor
  · rintro ⟨record, ⟨k, hk⟩, hs⟩
    exact ⟨k, record, hk, hs⟩
  · rintro ⟨k, record, hk, hs⟩
    exact ⟨record, ⟨k, hk⟩, hs⟩

theorem slotsIn_eq_flatMap (m : OrderedMap κ AttributeRecord) :
    slotsIn m = m.entries.flatMap (·.2.slots) := by
  simp [slotsIn, OrderedMap.values, List.flatMap_map]

variable [DecidableEq κ]

/-- Where no slot is held twice, a slot tells its record. -/
theorem key_eq_of_mem_slots {m : OrderedMap κ AttributeRecord} (hd : (slotsIn m).Nodup) {k l : κ}
    {p q : AttributeRecord} (hp : m.get? k = some p) (hq : m.get? l = some q) {slot : Nat}
    (hsp : slot ∈ p.slots) (hsq : slot ∈ q.slots) : k = l := by
  rw [slotsIn_eq_flatMap, List.nodup_flatMap] at hd
  by_contra hkl
  have : Std.Symm (Function.onFun List.Disjoint fun e : κ × AttributeRecord => e.2.slots) :=
    ⟨fun _ _ h _ hx hy => h hy hx⟩
  have hne : (k, p) ≠ (l, q) := fun h => hkl (congrArg Prod.fst h)
  exact hd.2.forall (OrderedMap.get?_eq_some_iff.1 hp) (OrderedMap.get?_eq_some_iff.1 hq) hne hsp hsq

theorem slotsIn_put_new {m : OrderedMap κ AttributeRecord} {k : κ} (h : m.get? k = none)
    (record : AttributeRecord) : slotsIn (m.put k record) = slotsIn m ++ record.slots := by
  rw [slotsIn_eq_flatMap, OrderedMap.entries_put_of_get?_eq_none h, slotsIn_eq_flatMap]
  simp

theorem slotsIn_put_extended {m : OrderedMap κ AttributeRecord} {k : κ} {record : AttributeRecord}
    (h : m.get? k = some record) (slots : List Nat) (hint : Hint) :
    (slotsIn (m.put k ⟨record.slots ++ slots, hint⟩)).Perm (slotsIn m ++ slots) := by
  obtain ⟨l, r, hm, hput⟩ := OrderedMap.exists_entries_put h
  rw [slotsIn_eq_flatMap, hput, slotsIn_eq_flatMap, hm]
  simp only [List.flatMap_append, List.flatMap_cons, List.append_assoc]
  have swap : (slots ++ r.flatMap (·.2.slots)).Perm (r.flatMap (·.2.slots) ++ slots) :=
    List.perm_append_comm
  exact (swap.append_left _).append_left _

/-- Putting a record adds no slot but its own, and replacing one may lose slots. -/
theorem slotsIn_put_subperm (m : OrderedMap κ AttributeRecord) (k : κ) (record : AttributeRecord) :
    (slotsIn (m.put k record)).Subperm (slotsIn m ++ record.slots) := by
  cases h : m.get? k with
  | none =>
    rw [slotsIn_put_new h]
  | some old =>
    obtain ⟨l, r, hm, hput⟩ := OrderedMap.exists_entries_put h
    rw [slotsIn_eq_flatMap, hput, slotsIn_eq_flatMap, hm]
    simp only [List.flatMap_append, List.flatMap_cons, List.append_assoc]
    refine (List.subperm_append_left _).2 ?_
    refine (List.perm_append_comm.subperm).trans ?_
    exact (List.sublist_append_right _ _).subperm

theorem slotsIn_ofList_subperm (es : List (κ × AttributeRecord)) :
    (slotsIn (OrderedMap.ofList es)).Subperm (es.flatMap (·.2.slots)) := by
  have key : ∀ (es : List (κ × AttributeRecord)) (m : OrderedMap κ AttributeRecord),
      (slotsIn (es.foldl (fun m e => m.put e.1 e.2) m)).Subperm
        (slotsIn m ++ es.flatMap (·.2.slots)) := by
    intro es
    induction es with
    | nil =>
      intro m
      rw [List.flatMap_nil, List.append_nil]
      exact .refl _
    | cons e es ih =>
      intro m
      refine (ih (m.put e.1 e.2)).trans ?_
      rw [List.flatMap_cons, ← List.append_assoc]
      exact (List.subperm_append_right _).2 (slotsIn_put_subperm m e.1 e.2)
  exact key es .empty

end

/-! ## Repeated names -/

theorem firstRepeated?_eq_none {seen names : List Text} :
    firstRepeated? seen names = none ↔ names.Nodup ∧ ∀ name ∈ names, name ∉ seen := by
  induction names generalizing seen with
  | nil => simp [firstRepeated?]
  | cons name names ih =>
    rw [firstRepeated?]
    by_cases h : name ∈ seen
    · simp [h]
    · rw [if_neg h, ih, List.nodup_cons]
      simp only [List.mem_cons, not_or, forall_eq_or_imp]
      constructor
      · rintro ⟨hd, hs⟩
        exact ⟨⟨fun hn => (hs name hn).1 rfl, hd⟩, h, fun n hn => (hs n hn).2⟩
      · rintro ⟨⟨hn, hd⟩, -, hs⟩
        exact ⟨hd, fun n hn' => ⟨fun he => hn (he ▸ hn'), hs n hn'⟩⟩

/-! ## The slots of a new axis -/

/-- An attribute of the new axis gets one slot after `last`; the others keep their records. -/
theorem get?_issue {axis : Text} {properties : List (Text × Hint)} (last : Nat)
    (hd : (properties.map Prod.fst).Nodup) (m : OrderedMap Attribute AttributeRecord)
    (a : Attribute) :
    ((a.axis = axis ∧ a.name ∈ properties.map Prod.fst) ∧
      ∃ slot hint, (issue axis last properties m).get? a = some ⟨[slot], hint⟩ ∧
        last < slot ∧ slot ≤ last + properties.length) ∨
    (¬ (a.axis = axis ∧ a.name ∈ properties.map Prod.fst) ∧
      (issue axis last properties m).get? a = m.get? a) := by
  induction properties generalizing last m with
  | nil => simp [issue]
  | cons p properties ih =>
    obtain ⟨name, hint⟩ := p
    rw [List.map_cons, List.nodup_cons] at hd
    rw [issue]
    rcases ih (last + 1) hd.2 (m.put ⟨axis, name⟩ ⟨[last + 1], hint⟩) with
      ⟨⟨hax, hin⟩, slot, h, hget, hlt, hle⟩ | ⟨hout, hget⟩
    · refine .inl ⟨⟨hax, List.mem_cons_of_mem _ hin⟩, slot, h, hget, by omega, ?_⟩
      rw [List.length_cons]
      omega
    · rw [hget, OrderedMap.get?_put]
      by_cases ha : (⟨axis, name⟩ : Attribute) = a
      · subst ha
        refine .inl ⟨⟨rfl, List.mem_cons_self⟩, last + 1, hint, by rw [if_pos rfl], by omega, ?_⟩
        rw [List.length_cons]
        omega
      · refine .inr ⟨?_, if_neg ha⟩
        rintro ⟨hax, hmem⟩
        rcases List.mem_cons.1 hmem with he | hmem
        · exact ha (by cases a; cases hax; cases he; rfl)
        · exact hout ⟨hax, hmem⟩

theorem firstRecords_cons (axis : Text) (last : Nat) (name : Text) (hint : Hint)
    (properties : List (Text × Hint)) :
    firstRecords axis last ((name, hint) :: properties) =
      (⟨axis, name⟩, ⟨[last + 1], hint⟩) :: firstRecords axis (last + 1) properties := by
  simp [firstRecords, List.mapIdx_cons, Nat.add_assoc, Nat.add_comm 1]

theorem slots_firstRecords (axis : Text) (last : Nat) (properties : List (Text × Hint)) :
    (firstRecords axis last properties).flatMap (·.2.slots) =
      List.range' (last + 1) properties.length := by
  induction properties generalizing last with
  | nil => rfl
  | cons p properties ih =>
    rw [firstRecords_cons, List.flatMap_cons, ih, List.length_cons, List.range'_succ]
    rfl

/-- Where none of the attributes is known, their records stand behind all others. -/
theorem entries_issue {axis : Text} {properties : List (Text × Hint)} {last : Nat}
    {m : OrderedMap Attribute AttributeRecord} (hd : (properties.map Prod.fst).Nodup)
    (hnew : ∀ name ∈ properties.map Prod.fst, m.get? ⟨axis, name⟩ = none) :
    (issue axis last properties m).entries = m.entries ++ firstRecords axis last properties := by
  induction properties generalizing last m with
  | nil => exact (List.append_nil _).symm
  | cons p properties ih =>
    obtain ⟨name, hint⟩ := p
    rw [List.map_cons, List.nodup_cons] at hd
    have hname : m.get? ⟨axis, name⟩ = none := hnew name List.mem_cons_self
    have hnew' : ∀ n ∈ properties.map Prod.fst,
        (m.put ⟨axis, name⟩ ⟨[last + 1], hint⟩).get? ⟨axis, n⟩ = none := by
      intro n hn
      rw [OrderedMap.get?_put, if_neg, hnew n (List.mem_cons_of_mem _ hn)]
      rintro ⟨⟩
      exact hd.1 hn
    rw [issue, ih hd.2 hnew', OrderedMap.entries_put_of_get?_eq_none hname, firstRecords_cons,
      List.append_assoc]
    rfl

theorem slotsIn_issue {axis : Text} {properties : List (Text × Hint)} {last : Nat}
    {m : OrderedMap Attribute AttributeRecord} (hd : (properties.map Prod.fst).Nodup)
    (hnew : ∀ name ∈ properties.map Prod.fst, m.get? ⟨axis, name⟩ = none) :
    slotsIn (issue axis last properties m) =
      slotsIn m ++ List.range' (last + 1) properties.length := by
  rw [slotsIn_eq_flatMap, entries_issue hd hnew, List.flatMap_append, ← slotsIn_eq_flatMap,
    slots_firstRecords]

/-- Whatever the map held before, the slots issued to an axis are new ones in a row. -/
theorem slotsIn_issue_subperm (axis : Text) (properties : List (Text × Hint)) (last : Nat)
    (m : OrderedMap Attribute AttributeRecord) :
    (slotsIn (issue axis last properties m)).Subperm
      (slotsIn m ++ List.range' (last + 1) properties.length) := by
  induction properties generalizing last m with
  | nil =>
    rw [issue, List.length_nil, List.range'_zero, List.append_nil]
  | cons p properties ih =>
    obtain ⟨name, hint⟩ := p
    rw [issue]
    refine (ih (last + 1) _).trans ?_
    rw [List.length_cons, List.range'_succ, List.append_cons]
    exact (List.subperm_append_right _).2 (slotsIn_put_subperm m _ _)

/-- In the order of its names, the attributes of a new axis take the slots after `last`. -/
theorem flatMap_issue {axis : Text} {properties : List (Text × Hint)} (last : Nat)
    (hd : (properties.map Prod.fst).Nodup) (m : OrderedMap Attribute AttributeRecord) :
    ((properties.map Prod.fst).flatMap fun name =>
      (((issue axis last properties m).get? ⟨axis, name⟩).map AttributeRecord.slots).getD []) =
      List.range' (last + 1) properties.length := by
  induction properties generalizing last m with
  | nil => rfl
  | cons p properties ih =>
    obtain ⟨name, hint⟩ := p
    rw [List.map_cons, List.nodup_cons] at hd
    have hfirst : (issue axis last ((name, hint) :: properties) m).get? ⟨axis, name⟩ =
        some ⟨[last + 1], hint⟩ := by
      rw [issue]
      rcases get?_issue (last + 1) hd.2 (m.put ⟨axis, name⟩ ⟨[last + 1], hint⟩) ⟨axis, name⟩ with
        ⟨⟨-, hin⟩, -⟩ | ⟨-, hget⟩
      · exact absurd hin hd.1
      · rw [hget, OrderedMap.get?_put, if_pos rfl]
    rw [List.map_cons, List.flatMap_cons, hfirst, List.length_cons, List.range'_succ, issue,
      ih (last + 1) hd.2]
    rfl

/-! ## Successful operations -/

theorem addAxis_eq_ok {r s : Registry} {axis : Axis} :
    r.addAxis axis = .ok s ↔
      r.axes.get? axis.name = none ∧ axis.names.Nodup ∧ axis.size ≤ r.remaining ∧
      s = { last := r.last + axis.size
            maximum := r.maximum
            axes := r.axes.put axis.name ⟨axis.names, axis.hierarchical⟩
            attributes := issue axis.name r.last axis.properties r.attributes } := by
  unfold addAxis
  cases hc : r.axes.get? axis.name with
  | some record => simp [OrderedMap.contains, hc]
  | none =>
    cases hf : firstRepeated? [] axis.names with
    | some name =>
      have hd : ¬ axis.names.Nodup := by
        intro hd
        rw [firstRepeated?_eq_none.2 ⟨hd, by simp⟩] at hf
        cases hf
      simp [OrderedMap.contains, hc, hd]
    | none =>
      have hd := (firstRepeated?_eq_none.1 hf).1
      by_cases hs : axis.size ≤ r.remaining
      · simp [OrderedMap.contains, hc, hd, hs, Nat.not_lt.2 hs, eq_comm]
      · simp [OrderedMap.contains, hc, hd, hs, Nat.not_le.1 hs]

theorem rotate_eq_ok {r s : Registry} {a : Attribute} :
    r.rotate a = .ok s ↔
      r.last < r.maximum ∧ ∃ record, r.attributes.get? a = some record ∧
      s = { last := r.last + 1
            maximum := r.maximum
            axes := r.axes
            attributes := r.attributes.put a ⟨record.slots ++ [r.last + 1], record.hint⟩ } := by
  unfold rotate
  by_cases hl : r.maximum ≤ r.last
  · simp [hl, Nat.not_lt.2 hl]
  · cases hg : r.attributes.get? a with
    | none => simp [hl]
    | some record => simp [hl, Nat.not_le.1 hl, eq_comm]

/-- The records after an axis was added: those of the axis hold one new slot each. -/
theorem get?_addAxis {r s : Registry} {axis : Axis} (h : r.addAxis axis = .ok s) (a : Attribute) :
    ((a.axis = axis.name ∧ a.name ∈ axis.names) ∧
      ∃ slot hint, s.attributes.get? a = some ⟨[slot], hint⟩ ∧ r.last < slot ∧ slot ≤ s.last) ∨
    (¬ (a.axis = axis.name ∧ a.name ∈ axis.names) ∧
      s.attributes.get? a = r.attributes.get? a) := by
  obtain ⟨-, hd, -, rfl⟩ := addAxis_eq_ok.1 h
  exact get?_issue r.last hd r.attributes a

theorem axes_addAxis {r s : Registry} {axis : Axis} (h : r.addAxis axis = .ok s) (name : Text) :
    s.axes.get? name =
      if axis.name = name then some ⟨axis.names, axis.hierarchical⟩ else r.axes.get? name := by
  obtain ⟨-, -, -, rfl⟩ := addAxis_eq_ok.1 h
  exact OrderedMap.get?_put ..

/-- The records after a rotation: that of the attribute has one slot more. -/
theorem get?_rotate {r s : Registry} {a : Attribute} (h : r.rotate a = .ok s) (b : Attribute) :
    (a = b ∧ ∃ record, r.attributes.get? b = some record ∧
      s.attributes.get? b = some ⟨record.slots ++ [r.last + 1], record.hint⟩) ∨
    (a ≠ b ∧ s.attributes.get? b = r.attributes.get? b) := by
  obtain ⟨-, record, ha, rfl⟩ := rotate_eq_ok.1 h
  by_cases hab : a = b
  · subst hab
    exact .inl ⟨rfl, record, ha, by rw [OrderedMap.get?_put, if_pos rfl]⟩
  · exact .inr ⟨hab, by rw [OrderedMap.get?_put, if_neg hab]⟩

theorem mem_keys_addAxis {r s : Registry} {axis : Axis} (h : r.addAxis axis = .ok s)
    {a : Attribute} :
    a ∈ s.attributes.keys ↔
      (a.axis = axis.name ∧ a.name ∈ axis.names) ∨ a ∈ r.attributes.keys := by
  simp only [OrderedMap.mem_keys_iff]
  rcases get?_addAxis h a with ⟨hin, slot, hint, hslot, -, -⟩ | ⟨hout, hold⟩
  · simp [hslot, hin]
  · simp [hold, hout]

theorem mem_keys_rotate {r s : Registry} {a : Attribute} (h : r.rotate a = .ok s)
    {b : Attribute} : b ∈ s.attributes.keys ↔ b ∈ r.attributes.keys := by
  simp only [OrderedMap.mem_keys_iff]
  rcases get?_rotate h b with ⟨-, record, hold, hnew⟩ | ⟨-, hold⟩
  · simp [hold, hnew]
  · rw [hold]

theorem new_eq_ok {maximum : Int} {r : Registry} :
    new maximum = .ok r ↔ 0 ≤ maximum ∧ maximum ≤ slotMaximum ∧ r = empty maximum.toNat := by
  unfold new
  by_cases h : 0 ≤ maximum ∧ maximum ≤ slotMaximum
  · simp [h, eq_comm]
  · rw [if_neg h]
    simp only [reduceCtorEq, false_iff]
    exact fun hk => h ⟨hk.1, hk.2.1⟩

end Registry

end AttributeAccess
