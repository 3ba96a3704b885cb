import AttributeAccess.AccessPolicy.Grouped
import AttributeAccess.Proofs.AccessPolicy.Enumeration
import AttributeAccess.Proofs.Registry.Resolution

/-!
# Combinations of policies from axes

The names given for one axis become a chain of `or`, and the chains become one chain of `and`, both
bracketed to the left. A group is `Chained` as a policy when its attributes are the literals and, one
by one, the combinations. From there the product of the chains is followed from left to right
(`spread_foldl_and`): it lists the choices of one name for each axis in lexicographic order
(`ofAxes_outcome`).
-/

namespace AttributeAccess

/-- A traversal ends at the first call that fails. -/
theorem mapM_eq_error {ε α β : Type} {f : α → Except ε β} {before after : List α} {a : α} {e : ε}
    (hbefore : ∀ b ∈ before, ∃ c, f b = .ok c) (ha : f a = .error e) :
    (before ++ a :: after).mapM f = .error e := by
  have hok : ∀ b ∈ before, ∃ c, f b = .ok c ∧ True := by simpa using hbefore
  obtain ⟨cs, hcs, -⟩ := exists_mapM hok
  rw [List.mapM_append, hcs, List.mapM_cons, ha]
  rfl

namespace AccessPolicy

/-- The attributes of a group, in the order of the names. -/
def onAxis (group : Text × List Text) : List Attribute :=
  group.2.map (⟨group.1, ·⟩)

/-- The policy is a chain of `or` over the attributes of the group. -/
structure Chained (group : Text × List Text) (t : AccessPolicy) : Prop where
  literals_eq : t.literals = onAxis group
  spread_eq : (t.spread fun a => [a]) = (onAxis group).map ([·])

/-! ## Chains -/

/-- What a connective joins, a chain of it joins in its order. -/
theorem view_foldl {α : Type} (view : AccessPolicy → List α)
    {op : AccessPolicy → AccessPolicy → AccessPolicy}
    (h : ∀ l r, view (op l r) = view l ++ view r) (t : AccessPolicy) (ts : List AccessPolicy) :
    view (ts.foldl op t) = view t ++ ts.flatMap view := by
  induction ts generalizing t with
  | nil => exact (List.append_nil _).symm
  | cons u ts ih => rw [List.foldl_cons, ih, h, List.append_assoc, List.flatMap_cons]

theorem chained_anyOf (axis first : Text) (others : List Text) :
    Chained (axis, first :: others) (anyOf axis first others) := by
  have hchain : anyOf axis first others =
      (others.map fun name => attr ⟨axis, name⟩).foldl or (attr ⟨axis, first⟩) := by
    rw [anyOf, List.foldl_map]
  constructor
  · rw [hchain, view_foldl literals fun _ _ => rfl, List.flatMap_map]
    simp [onAxis, literals, ← List.map_eq_flatMap]
  · rw [hchain, view_foldl (spread _) fun _ _ => rfl, List.flatMap_map]
    simp [onAxis, spread, ← List.map_eq_flatMap]

section
variable {groups : List (Text × List Text)} {ts : List AccessPolicy}

theorem flatMap_literals (h : List.Forall₂ Chained groups ts) :
    ts.flatMap literals = groups.flatMap onAxis := by
  induction h with
  | nil => rfl
  | cons hgroup _ ih => rw [List.flatMap_cons, List.flatMap_cons, hgroup.literals_eq, ih]

/-- Each further axis varies faster than those in front of it. -/
theorem spread_foldl_and (h : List.Forall₂ Chained groups ts) (t : AccessPolicy) :
    ((ts.foldl and t).spread fun a => [a]) =
      product (t.spread fun a => [a]) (choices (groups.map onAxis)) := by
  induction h generalizing t with
  | nil => exact product_unit_right.symm
  | cons hgroup _ ih =>
    rw [List.foldl_cons, ih, spread, hgroup.spread_eq, product_assoc, ← choices_cons, List.map_cons]

end

/-! ## Groups -/

theorem exists_groupPolicy {group : Text × List Text} (h : group.2 ≠ []) :
    ∃ t, groupPolicy group = .ok t ∧ Chained group t := by
  obtain ⟨axis, names⟩ := group
  obtain ⟨first, others, rfl⟩ := List.exists_cons_of_ne_nil h
  exact ⟨anyOf axis first others, rfl, chained_anyOf axis first others⟩

/-- Where every group has names, the policy has the attributes of the groups as its literals, and
the choices from them as its combinations. -/
theorem exists_ofAxes {groups : OrderedMap Text (List Text)} (hne : groups.entries ≠ [])
    (h : ∀ group ∈ groups.entries, group.2 ≠ []) :
    ∃ t, ofAxes groups = .ok t ∧ t.literals = groups.entries.flatMap onAxis ∧
      (t.spread fun a => [a]) = choices (groups.entries.map onAxis) := by
  obtain ⟨ts, hts, hchained⟩ := exists_mapM fun group hg => exists_groupPolicy (h group hg)
  cases hg : groups.entries with
  | nil => exact absurd hg hne
  | cons group rest =>
    rw [hg] at hchained
    cases hchained with
    | cons hgroup hrest =>
      refine ⟨_, by rw [ofAxes, hts]; rfl, ?_, ?_⟩
      · rw [view_foldl literals fun _ _ => rfl, flatMap_literals hrest,
          hgroup.literals_eq, List.flatMap_cons]
      · rw [spread_foldl_and hrest, hgroup.spread_eq, ← choices_cons, List.map_cons]

/-- **Names for each axis make the choices of one name for each axis.** The first axis without names
is the fault, and so is a map without axes. Otherwise there is a policy, and over any axes that
include those given its combinations are all choices of one attribute for each axis: in
lexicographic order, with the attributes in the order of the axes, and as often as names are
repeated. -/
theorem ofAxes_outcome (groups : OrderedMap Text (List Text)) :
    (∀ before axis after, groups.entries = before ++ (axis, []) :: after →
      (∀ group ∈ before, group.2 ≠ []) →
        ofAxes groups = .error (.missingAttribute none (some axis))) ∧
    (groups.entries = [] → ofAxes groups = .error .missingAxis) ∧
    (groups.entries ≠ [] → (∀ group ∈ groups.entries, group.2 ≠ []) →
      ∃ t, ofAxes groups = .ok t ∧ ∀ axes : Axes,
        (∀ axis ∈ groups.keys, axes.contains axis = true) →
          t.combinations axes false = .ok (choices (groups.entries.map onAxis))) := by
  refine ⟨fun before axis after hentries hbefore => ?_, fun hnil => ?_, fun hne hfull => ?_⟩
  · have hok : ∀ group ∈ before, ∃ t, groupPolicy group = .ok t := fun group hg =>
      (exists_groupPolicy (hbefore group hg)).imp fun _ ht => ht.1
    have hempty : groupPolicy (axis, []) = .error (.missingAttribute none (some axis)) := rfl
    rw [ofAxes, hentries, mapM_eq_error hok hempty]
    rfl
  · rw [ofAxes, hnil]
    rfl
  · obtain ⟨t, ht, hliterals, hspread⟩ := exists_ofAxes hne hfull
    refine ⟨t, ht, fun axes haxes => combinations_eq_ok_iff.2 ⟨fun a ha => ?_, ?_⟩⟩
    · obtain ⟨group, hgroup, hin⟩ := List.mem_flatMap.1 (hliterals ▸ ha)
      obtain ⟨name, -, rfl⟩ := List.mem_map.1 hin
      exact Axes.fault?_false_eq_none_iff.2
        (haxes _ (List.mem_map_of_mem (f := Prod.fst) hgroup))
    · rw [Axes.standIns_false, hspread]

/-- A repeated name counts twice, and the axes stand in the order given and not in that of the
registry; then a map with two axes without names, and a map without axes. -/
theorem ofAxes_outcome_repeated :
    let axes : Axes := .ofList
      [("L".toText, ⟨["1".toText, "2".toText], true⟩), ("D".toText, ⟨["x".toText], false⟩)]
    let groups : OrderedMap Text (List Text) :=
      .ofList [("D".toText, ["x".toText, "x".toText]), ("L".toText, ["2".toText, "1".toText])]
    let lacking : OrderedMap Text (List Text) :=
      .ofList [("D".toText, ["x".toText]), ("M".toText, []), ("L".toText, [])]
    let x : Attribute := ⟨"D".toText, "x".toText⟩
    let low : Attribute := ⟨"L".toText, "1".toText⟩
    let high : Attribute := ⟨"L".toText, "2".toText⟩
    (∃ t, ofAxes groups = .ok t ∧
      t.combinations axes false = .ok [[x, high], [x, low], [x, high], [x, low]]) ∧
    ofAxes lacking = .error (.missingAttribute none (some "M".toText)) ∧
    ofAxes .empty = .error .missingAxis := by
  intro axes groups lacking x low high
  obtain ⟨t, ht, hlist⟩ := (ofAxes_outcome groups).2.2 (by decide) (by decide)
  have hmissing :=
    (ofAxes_outcome lacking).1 [("D".toText, ["x".toText])] "M".toText [("L".toText, [])] rfl
      (by decide)
  exact ⟨⟨t, ht, hlist axes (by decide)⟩, hmissing, (ofAxes_outcome .empty).2.1 rfl⟩

end AccessPolicy

end AttributeAccess
