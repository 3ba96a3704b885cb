import AttributeAccess.OrderedMap
import Mathlib.Data.List.Nodup
import Mathlib.Data.List.Perm.Subperm

/-!
# Entries of ordered maps

What `put` and `ofList` do to the list of entries. Keys are distinct, so looking a key up and
finding its entry are the same (`get?_eq_some_iff`); a new key is listed last
(`entries_put_of_get?_eq_none`), a known one keeps its place (`exists_entries_put`), and a list
without repeated keys is a map as it stands (`entries_ofList`). Two maps have the same entries when
one lists those of the other in some order (`sameEntries_iff`), that is, when all look-ups give the
same (`sameEntries_iff_get?`).
-/

namespace AttributeAccess.OrderedMap

variable {κ α β : Type}

@[ext] theorem ext {m n : OrderedMap κ α} (h : m.entries = n.entries) : m = n := by
  cases m; cases n; cases h; rfl

@[simp] theorem entries_empty : (empty : OrderedMap κ α).entries = [] := rfl

@[simp] theorem entries_mapValues (f : α → β) (m : OrderedMap κ α) :
    (m.mapValues f).entries = m.entries.map fun e => (e.1, f e.2) := rfl

@[simp] theorem keys_mapValues (f : α → β) (m : OrderedMap κ α) : (m.mapValues f).keys = m.keys :=
  keys_mapEntries m.entries f

variable [DecidableEq κ]

/-! ## Looking up -/

theorem mem_of_valueIn? {k : κ} {v : α} {es : List (κ × α)} (h : valueIn? k es = some v) :
    (k, v) ∈ es := by
  induction es with
  | nil => simp [valueIn?] at h
  | cons e es ih =>
    rw [valueIn?] at h
    split at h
    · next he =>
      cases h
      exact he ▸ List.mem_cons_self
    · exact List.mem_cons_of_mem _ (ih h)

theorem valueIn?_of_mem {k : κ} {v : α} {es : List (κ × α)} (hd : (es.map Prod.fst).Nodup)
    (h : (k, v) ∈ es) : valueIn? k es = some v := by
  induction es with
  | nil => cases h
  | cons e es ih =>
    rw [List.map_cons, List.nodup_cons] at hd
    rw [valueIn?]
    rcases List.mem_cons.1 h with rfl | h
    · simp
    · have hne : e.1 ≠ k := fun he => hd.1 (he ▸ List.mem_map_of_mem (f := Prod.fst) h)
      rw [if_neg hne, ih hd.2 h]

theorem get?_eq_some_iff {m : OrderedMap κ α} {k : κ} {v : α} :
    m.get? k = some v ↔ (k, v) ∈ m.entries :=
  ⟨mem_of_valueIn?, valueIn?_of_mem m.distinct⟩

theorem get?_eq_none_iff {m : OrderedMap κ α} {k : κ} : m.get? k = none ↔ k ∉ m.keys := by
  constructor
  · intro h hk
    obtain ⟨e, he, rfl⟩ := List.mem_map.1 hk
    have := get?_eq_some_iff.2 he
    rw [h] at this
    cases this
  · intro h
    cases hv : m.get? k with
    | none => rfl
    | some v => exact absurd (List.mem_map_of_mem (f := Prod.fst) (get?_eq_some_iff.1 hv)) h

theorem contains_iff {m : OrderedMap κ α} {k : κ} :
    m.contains k = true ↔ ∃ v, m.get? k = some v := by
  rw [contains, Option.isSome_iff_exists]

theorem mem_keys_iff {m : OrderedMap κ α} {k : κ} : k ∈ m.keys ↔ ∃ v, m.get? k = some v := by
  simp [keys, get?_eq_some_iff]

theorem mem_values_iff {m : OrderedMap κ α} {v : α} :
    v ∈ m.values ↔ ∃ k, m.get? k = some v := by
  simp [values, get?_eq_some_iff]

/-- What is looked up does not depend on the order of the entries. -/
theorem get?_eq_of_perm {m n : OrderedMap κ α} (h : m.entries.Perm n.entries) (k : κ) :
    m.get? k = n.get? k := by
  refine Option.ext fun v => ?_
  rw [get?_eq_some_iff, get?_eq_some_iff]
  exact h.mem_iff

theorem get?_mapValues (f : α → β) (m : OrderedMap κ α) (k : κ) :
    (m.mapValues f).get? k = (m.get? k).map f := by
  simp only [get?, entries_mapValues]
  induction m.entries with
  | nil => rfl
  | cons e es ih =>
    rw [List.map_cons, valueIn?, valueIn?]
    split
    · rfl
    · exact ih

/-! ## Putting -/

theorem putIn_eq_append {k : κ} {v : α} {es : List (κ × α)} (h : k ∉ es.map Prod.fst) :
    putIn k v es = es ++ [(k, v)] := by
  induction es with
  | nil => rfl
  | cons e es ih =>
    rw [List.map_cons, List.mem_cons, not_or] at h
    rw [putIn, if_neg (Ne.symm h.1), ih h.2]
    rfl

theorem entries_put_of_get?_eq_none {m : OrderedMap κ α} {k : κ} (h : m.get? k = none) (v : α) :
    (m.put k v).entries = m.entries ++ [(k, v)] :=
  putIn_eq_append (get?_eq_none_iff.1 h)

/-- A known key has one place, and putting it again replaces the value there. -/
theorem exists_entries_put {m : OrderedMap κ α} {k : κ} {w : α} (h : m.get? k = some w) :
    ∃ l r, m.entries = l ++ (k, w) :: r ∧ ∀ v, (m.put k v).entries = l ++ (k, v) :: r := by
  have key : ∀ es : List (κ × α), valueIn? k es = some w →
      ∃ l r, es = l ++ (k, w) :: r ∧ ∀ v, putIn k v es = l ++ (k, v) :: r := by
    intro es
    induction es with
    | nil => intro he; simp [valueIn?] at he
    | cons e es ih =>
      intro he
      rw [valueIn?] at he
      split at he
      · next hek =>
        cases he
        exact ⟨[], es, by simp [← hek], fun v => by simp [putIn, hek]⟩
      · next hek =>
        obtain ⟨l, r, hes, hput⟩ := ih he
        exact ⟨e :: l, r, by rw [hes]; rfl, fun v => by rw [putIn, if_neg hek, hput]; rfl⟩
  exact key m.entries h

/-! ## Lists as maps -/

theorem entries_foldl_put {es : List (κ × α)} {m : OrderedMap κ α}
    (h : ((m.entries ++ es).map Prod.fst).Nodup) :
    (es.foldl (fun m e => m.put e.1 e.2) m).entries = m.entries ++ es := by
  induction es generalizing m with
  | nil => simp
  | cons e es ih =>
    have hnew : m.get? e.1 = none := by
      rw [get?_eq_none_iff]
      intro hk
      rw [List.map_append, List.map_cons] at h
      exact List.disjoint_of_nodup_append h hk List.mem_cons_self
    have hput := entries_put_of_get?_eq_none hnew e.2
    rw [List.foldl_cons, ih (by rw [hput]; simpa using h), hput]
    simp

theorem entries_ofList {es : List (κ × α)} (h : (es.map Prod.fst).Nodup) :
    (ofList es).entries = es := by
  have hfold : (ofList es).entries = (empty : OrderedMap κ α).entries ++ es :=
    entries_foldl_put (by simpa using h)
  rwa [entries_empty, List.nil_append] at hfold

@[simp] theorem ofList_entries (m : OrderedMap κ α) : ofList m.entries = m :=
  ext (entries_ofList m.distinct)

theorem mem_keys_put {m : OrderedMap κ α} {k k' : κ} {v : α} :
    k' ∈ (m.put k v).keys ↔ k' ∈ m.keys ∨ k' = k := by
  rw [keys_put]
  by_cases h : k ∈ m.keys
  · rw [if_pos h, or_iff_left_of_imp]
    rintro rfl
    exact h
  · rw [if_neg h, List.mem_append, List.mem_singleton]

theorem mem_keys_ofList {es : List (κ × α)} {k : κ} :
    k ∈ (ofList es).keys ↔ k ∈ es.map Prod.fst := by
  have key : ∀ (es : List (κ × α)) (m : OrderedMap κ α),
      k ∈ (es.foldl (fun m e => m.put e.1 e.2) m).keys ↔ k ∈ m.keys ∨ k ∈ es.map Prod.fst := by
    intro es
    induction es with
    | nil => simp
    | cons e es ih =>
      intro m
      rw [List.foldl_cons, ih, mem_keys_put, List.map_cons, List.mem_cons, or_assoc]
  have hempty : k ∉ (empty : OrderedMap κ α).keys := List.not_mem_nil
  exact (key es empty).trans (or_iff_right hempty)

/-- An entry of the map was listed. -/
theorem mem_of_mem_ofList {es : List (κ × α)} {e : κ × α} (h : e ∈ (ofList es).entries) :
    e ∈ es := by
  have key : ∀ (es : List (κ × α)) (m : OrderedMap κ α),
      e ∈ (es.foldl (fun m e => m.put e.1 e.2) m).entries → e ∈ m.entries ∨ e ∈ es := by
    intro es
    induction es with
    | nil => exact fun m he => .inl he
    | cons d es ih =>
      intro m he
      rcases ih _ he with hput | hrest
      · rw [← get?_eq_some_iff, get?_put] at hput
        split at hput
        · next hkey =>
          exact .inr (List.mem_cons.2 (.inl (Prod.ext hkey.symm (Option.some.inj hput).symm)))
        · exact .inl (get?_eq_some_iff.1 hput)
      · exact .inr (List.mem_cons_of_mem d hrest)
  exact (key es empty h).resolve_left List.not_mem_nil

/-! ## The same entries -/

theorem sameEntries_iff [DecidableEq α] {m n : OrderedMap κ α} :
    m.sameEntries n = true ↔ m.entries.Perm n.entries := by
  simp only [sameEntries, Bool.and_eq_true, List.all_eq_true, beq_iff_eq]
  constructor
  · rintro ⟨hsize, hall⟩
    -- distinct entries that all stand in a list no longer than theirs
    have hsub : m.entries ⊆ n.entries := fun e he => get?_eq_some_iff.1 (hall e he)
    have hnodup : m.entries.Nodup := .of_map _ m.distinct
    exact (List.subperm_of_subset hnodup hsub).perm_of_length_le (Nat.le_of_eq hsize.symm)
  · intro hperm
    exact ⟨hperm.length_eq, fun e he => get?_eq_some_iff.2 (hperm.mem_iff.1 he)⟩

theorem sameEntries_iff_get? [DecidableEq α] {m n : OrderedMap κ α} :
    m.sameEntries n = true ↔ ∀ k, m.get? k = n.get? k := by
  rw [sameEntries_iff]
  refine ⟨get?_eq_of_perm, fun h => ?_⟩
  refine (List.perm_ext_iff_of_nodup (.of_map _ m.distinct) (.of_map _ n.distinct)).2 ?_
  rintro ⟨k, v⟩
  rw [← get?_eq_some_iff, ← get?_eq_some_iff, h]

/-- Distinct keys that have the values listed, and no others. -/
theorem entries_perm_iff {m : OrderedMap κ α} {es : List (κ × α)} (hd : (es.map Prod.fst).Nodup) :
    m.entries.Perm es ↔
      (∀ e ∈ es, m.get? e.1 = some e.2) ∧ ∀ k ∈ m.keys, k ∈ es.map Prod.fst := by
  constructor
  · intro hperm
    exact ⟨fun e he => get?_eq_some_iff.2 (hperm.mem_iff.2 he),
      fun k hk => (hperm.map Prod.fst).mem_iff.1 hk⟩
  · rintro ⟨hget, hkeys⟩
    refine (List.perm_ext_iff_of_nodup (.of_map _ m.distinct) (.of_map _ hd)).2 fun e => ?_
    refine ⟨fun he => ?_, fun he => get?_eq_some_iff.1 (hget e he)⟩
    obtain ⟨listed, hlisted, hkey⟩ := List.mem_map.1 (hkeys e.1 (List.mem_map_of_mem he))
    have hvalue : some e.2 = some listed.2 := by
      rw [← hget listed hlisted, hkey]
      exact (get?_eq_some_iff.2 he).symm
    rwa [Prod.ext hkey.symm (Option.some.inj hvalue)]

end AttributeAccess.OrderedMap
