/-!
# Maps in order of insertion

An ordered map lists its entries in the order in which their keys were first put. Putting a
known key replaces the value where it stands. Keys are distinct by construction.
-/

namespace AttributeAccess

variable {κ α β : Type}

structure OrderedMap (κ α : Type) where
  entries : List (κ × α)
  distinct : (entries.map Prod.fst).Nodup := by simp
deriving DecidableEq, Repr

namespace OrderedMap

def empty : OrderedMap κ α := ⟨[], by simp⟩

instance : Inhabited (OrderedMap κ α) := ⟨empty⟩

def keys (m : OrderedMap κ α) : List κ := m.entries.map Prod.fst

def values (m : OrderedMap κ α) : List α := m.entries.map Prod.snd

def size (m : OrderedMap κ α) : Nat := m.entries.length

theorem nodup_keys (m : OrderedMap κ α) : m.keys.Nodup := m.distinct

/-- The value listed first for a key. -/
def valueIn? [DecidableEq κ] (k : κ) : List (κ × α) → Option α
  | [] => none
  | (k', v) :: es => if k' = k then some v else valueIn? k es

/-- Replaces the value of a listed key, else lists the key last. -/
def putIn [DecidableEq κ] (k : κ) (v : α) : List (κ × α) → List (κ × α)
  | [] => [(k, v)]
  | (k', v') :: es => if k' = k then (k', v) :: es else (k', v') :: putIn k v es

theorem keys_putIn [DecidableEq κ] (k : κ) (v : α) (es : List (κ × α)) :
    (putIn k v es).map Prod.fst =
      if k ∈ es.map Prod.fst then es.map Prod.fst else es.map Prod.fst ++ [k] := by
  induction es with
  | nil => simp [putIn]
  | cons e es ih =>
    by_cases h : e.1 = k
    · simp [putIn, h]
    · have h' : k ≠ e.1 := fun e' => h e'.symm
      by_cases hk : k ∈ es.map Prod.fst <;> simp_all [putIn]

theorem nodup_putIn [DecidableEq κ] {k : κ} {v : α} {es : List (κ × α)}
    (h : (es.map Prod.fst).Nodup) : ((putIn k v es).map Prod.fst).Nodup := by
  rw [keys_putIn]
  split
  · exact h
  · next hk =>
    refine List.nodup_append.2 ⟨h, by simp, ?_⟩
    intro a ha b hb
    simp only [List.mem_singleton] at hb
    rintro rfl
    exact hk (hb ▸ ha)

variable [DecidableEq κ]

def get? (m : OrderedMap κ α) (k : κ) : Option α := valueIn? k m.entries

def contains (m : OrderedMap κ α) (k : κ) : Bool := (m.get? k).isSome

def put (m : OrderedMap κ α) (k : κ) (v : α) : OrderedMap κ α :=
  ⟨putIn k v m.entries, nodup_putIn m.distinct⟩

/-- The entries in order: a key keeps its first place and its last value. -/
def ofList (es : List (κ × α)) : OrderedMap κ α :=
  es.foldl (fun m e => m.put e.1 e.2) empty

omit [DecidableEq κ] in
theorem keys_mapEntries (es : List (κ × α)) (f : α → β) :
    (es.map fun e => (e.1, f e.2)).map Prod.fst = es.map Prod.fst := by
  simp [List.map_map, Function.comp_def]

def mapValues (f : α → β) (m : OrderedMap κ α) : OrderedMap κ β :=
  ⟨m.entries.map fun e => (e.1, f e.2), by rw [keys_mapEntries]; exact m.distinct⟩

/-- The same keys with the same values, in any order. -/
def sameEntries [DecidableEq α] (m n : OrderedMap κ α) : Bool :=
  m.size == n.size && m.entries.all fun e => n.get? e.1 == some e.2

@[simp] theorem entries_put (m : OrderedMap κ α) (k : κ) (v : α) :
    (m.put k v).entries = putIn k v m.entries := rfl

theorem get?_put (m : OrderedMap κ α) (k k' : κ) (v : α) :
    (m.put k v).get? k' = if k = k' then some v else m.get? k' := by
  simp only [get?, entries_put]
  induction m.entries with
  | nil => simp [putIn, valueIn?]
  | cons e es ih =>
    by_cases h : e.1 = k
    · subst h; by_cases h' : e.1 = k' <;> simp [putIn, valueIn?, h']
    · by_cases h' : e.1 = k'
      · have hne : ¬ k' = k := fun e' => h (h'.trans e')
        simp [putIn, valueIn?, h', hne, Ne.symm hne]
      · simp [putIn, valueIn?, h, h', ih]

theorem keys_put (m : OrderedMap κ α) (k : κ) (v : α) :
    (m.put k v).keys = if k ∈ m.keys then m.keys else m.keys ++ [k] :=
  keys_putIn k v m.entries

end OrderedMap

end AttributeAccess
