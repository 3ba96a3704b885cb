import AttributeAccess.Proofs.Registry.Ledger

/-!
# Adding an axis

Three things may speak against a new axis: its name is taken, it repeats a name, or it has more
attributes than slots are left. `Refuses` lists them; each counts only where those before it do not.
Otherwise the registry `Extends` to one that begins with all that was there and ends with the axis
and its attributes. The slots are issued in a row (`entries_issue`). That they stand behind the old
entries and replace none rests on the agreement of axes and attributes in a gapless registry, so it
holds in every run from a new one (`addAxis_outcome`).
-/

namespace AttributeAccess.Registry

/-- Why an axis is not added. -/
inductive Refuses (r : Registry) (axis : Axis) : Fault → Prop
  | taken (h : axis.name ∈ r.axes.keys) : Refuses r axis (.existingAxis axis.name)
  | repeats (before after : List Text) {name : Text} (hnew : axis.name ∉ r.axes.keys)
      (hnames : axis.names = before ++ name :: after) (hd : before.Nodup) (hname : name ∈ before) :
      Refuses r axis (.existingAttribute ⟨axis.name, name⟩)
  | overflows (hnew : axis.name ∉ r.axes.keys) (hd : axis.names.Nodup)
      (hsize : r.remaining < axis.size) :
      Refuses r axis (.capacityOverflow axis.size r.remaining)

/-- All that was there, in its place and unchanged, and the axis behind it. -/
structure Extends (r : Registry) (axis : Axis) (s : Registry) : Prop where
  last : s.last = r.last + axis.size
  maximum : s.maximum = r.maximum
  axes : s.axes.entries = r.axes.entries ++ [(axis.name, ⟨axis.names, axis.hierarchical⟩)]
  attributes :
    s.attributes.entries = r.attributes.entries ++ firstRecords axis.name r.last axis.properties

variable {r s : Registry} {axis : Axis}

/-! ## Refusals -/

theorem firstRepeated?_append {seen before after : List Text} {name : Text}
    (hd : (before.reverse ++ seen).Nodup) (hname : name ∈ before.reverse ++ seen) :
    firstRepeated? seen (before ++ name :: after) = some name := by
  induction before generalizing seen with
  | nil => exact if_pos hname
  | cons first before ih =>
    rw [List.reverse_cons, List.append_assoc] at hd hname
    have hfirst : first ∉ seen := (List.nodup_cons.1 (List.nodup_append.1 hd).2.1).1
    rw [List.cons_append, firstRepeated?, if_neg hfirst]
    exact ih hd hname

theorem firstRepeated?_eq_some {before after : List Text} {name : Text} (hd : before.Nodup)
    (hname : name ∈ before) : firstRepeated? [] (before ++ name :: after) = some name :=
  firstRepeated?_append (by rwa [List.append_nil, List.nodup_reverse])
    (by rwa [List.append_nil, List.mem_reverse])

/-- If a name comes again, there is a first one that does. -/
theorem exists_repeated {names : List Text} (h : ¬ names.Nodup) :
    ∃ before name after, names = before ++ name :: after ∧ before.Nodup ∧ name ∈ before := by
  induction names using List.reverseRecOn with
  | nil => exact absurd List.nodup_nil h
  | append_singleton names name ih =>
    by_cases hnames : names.Nodup
    · have hmem : name ∈ names := by
        by_contra hnew
        rw [← List.concat_eq_append, List.nodup_concat] at h
        exact h ⟨hnew, hnames⟩
      exact ⟨names, name, [], rfl, hnames, hmem⟩
    · obtain ⟨before, repeated, after, rfl, hd, hmem⟩ := ih hnames
      exact ⟨before, repeated, after ++ [name], List.append_assoc .., hd, hmem⟩

namespace Refuses

/-- The cause decides: what stands against an axis is what adding it reports. -/
theorem addAxis {e : Fault} (h : r.Refuses axis e) : r.addAxis axis = .error e := by
  unfold Registry.addAxis
  cases h with
  | taken hkey => rw [if_pos (OrderedMap.contains_iff.2 (OrderedMap.mem_keys_iff.1 hkey))]
  | repeats before after hnew hnames hd hname =>
    have hfree := OrderedMap.get?_eq_none_iff.2 hnew
    have hfirst : firstRepeated? [] axis.names = some _ := hnames ▸ firstRepeated?_eq_some hd hname
    simp [OrderedMap.contains, hfree, hfirst]
  | overflows hnew hd hsize =>
    have hfree := OrderedMap.get?_eq_none_iff.2 hnew
    have hfirst : firstRepeated? [] axis.names = none :=
      firstRepeated?_eq_none.2 ⟨hd, fun _ _ => List.not_mem_nil⟩
    simp [OrderedMap.contains, hfree, hfirst, hsize]

/-- Something stands against an axis, or all that adding it requires holds. -/
theorem exists_or (r : Registry) (axis : Axis) :
    (∃ e, r.Refuses axis e) ∨
      (axis.name ∉ r.axes.keys ∧ axis.names.Nodup ∧ axis.size ≤ r.remaining) := by
  by_cases hkey : axis.name ∈ r.axes.keys
  · exact .inl ⟨_, .taken hkey⟩
  · by_cases hd : axis.names.Nodup
    · by_cases hsize : r.remaining < axis.size
      · exact .inl ⟨_, .overflows hkey hd hsize⟩
      · exact .inr ⟨hkey, hd, Nat.not_lt.1 hsize⟩
    · obtain ⟨before, name, after, hnames, hbefore, hname⟩ := exists_repeated hd
      exact .inl ⟨_, .repeats before after hkey hnames hbefore hname⟩

end Refuses

theorem addAxis_isOk_iff :
    (∃ s, r.addAxis axis = .ok s) ↔
      axis.name ∉ r.axes.keys ∧ axis.names.Nodup ∧ axis.size ≤ r.remaining := by
  simp only [addAxis_eq_ok, OrderedMap.get?_eq_none_iff, exists_and_left, exists_eq, and_true]

theorem addAxis_eq_error_iff {e : Fault} : r.addAxis axis = .error e ↔ r.Refuses axis e := by
  refine ⟨fun h => ?_, Refuses.addAxis⟩
  rcases Refuses.exists_or r axis with ⟨cause, hcause⟩ | hfree
  · rw [hcause.addAxis] at h
    cases h
    exact hcause
  · obtain ⟨s, hs⟩ := addAxis_isOk_iff.2 hfree
    rw [h] at hs
    cases hs

/-! ## Success -/

namespace Extends

theorem of_gapless (hr : r.Gapless) (h : r.addAxis axis = .ok s) : r.Extends axis s := by
  obtain ⟨hnew, hd, -, rfl⟩ := addAxis_eq_ok.1 h
  exact {
    last := rfl
    maximum := rfl
    axes := OrderedMap.entries_put_of_get?_eq_none hnew _
    attributes := entries_issue hd fun _ _ => hr.get?_eq_none hnew }

/-- The first attribute gets the first slot after the last one, and so on. -/
theorem get?_new (h : r.Extends axis s) {i : Nat} {name : Text} {hint : Hint}
    (hi : axis.properties[i]? = some (name, hint)) :
    s.attributes.get? ⟨axis.name, name⟩ = some ⟨[r.last + (i + 1)], hint⟩ := by
  rw [OrderedMap.get?_eq_some_iff, h.attributes]
  refine List.mem_append_right _ (List.mem_of_getElem? (i := i) ?_)
  rw [firstRecords, List.getElem?_mapIdx, hi, Option.map_some]

end Extends

/-- **Adding an axis succeeds exactly if its name is new, its names differ and the slots suffice.**
After any run from a new registry, a refusal is about the first of these that fails and changes
nothing. Otherwise all axes and attributes stay as they were and where they were, and behind them
stand the axis and its attributes in order, each with its hint and one of the next slots. -/
theorem addAxis_outcome {maximum : Int} {start : Registry} (h : Registry.new maximum = .ok start)
    (ops : List Operation) (axis : Axis) :
    let r := start.run ops
    ((∃ s, r.addAxis axis = .ok s) ↔
      axis.name ∉ r.axes.keys ∧ axis.names.Nodup ∧ axis.size ≤ r.remaining) ∧
    (∀ e, r.addAxis axis = .error e ↔ r.Refuses axis e) ∧
    (∀ e, r.addAxis axis = .error e → r.after (.addAxis axis) = r) ∧
    ∀ s, r.addAxis axis = .ok s → r.after (.addAxis axis) = s ∧ r.Extends axis s ∧
      ∀ i name hint, axis.properties[i]? = some (name, hint) →
        s.attributes.get? ⟨axis.name, name⟩ = some ⟨[r.last + (i + 1)], hint⟩ := by
  intro r
  have hr : r.Gapless := by
    obtain ⟨-, -, rfl⟩ := new_eq_ok.1 h
    exact (Gapless.empty maximum.toNat).run ops
  refine ⟨addAxis_isOk_iff, fun e => addAxis_eq_error_iff, fun e he => ?_, fun s hs => ?_⟩
  · exact after_of_refused he
  · have hext := Extends.of_gapless hr hs
    exact ⟨after_of_apply hs, hext, fun i name hint hi => hext.get?_new hi⟩

/-- Two slots are left: two attributes fit, and of three the one that comes twice is reported. -/
theorem addAxis_outcome_exact_fit :
    let ops : List Operation := [
      .addAxis ⟨"A".toText, [("x".toText, .classic), ("y".toText, .hybridized)], true⟩,
      .rotate ⟨"A".toText, "x".toText⟩]
    let r := (empty 5).run ops
    let axis : Axis := ⟨"B".toText, [("x".toText, .hybridized), ("z".toText, .classic)], false⟩
    let repeating : Axis :=
      ⟨"C".toText, [("p".toText, .classic), ("q".toText, .classic), ("p".toText, .classic)], true⟩
    Registry.new 5 = .ok (empty 5) ∧ r.remaining = 2 ∧
      (∃ s, r.addAxis axis = .ok s ∧ r.Extends axis s ∧ s.remaining = 0 ∧
        s.attributes.get? ⟨"B".toText, "z".toText⟩ = some ⟨[5], .classic⟩) ∧
      r.addAxis repeating = .error (.existingAttribute ⟨"C".toText, "p".toText⟩) := by
  intro ops r axis repeating
  have hnew : Registry.new 5 = .ok (empty 5) := rfl
  obtain ⟨hadded, -, -, hsuccess⟩ := addAxis_outcome hnew ops axis
  obtain ⟨s, hs⟩ := hadded.2 ⟨by decide, by decide, by decide⟩
  obtain ⟨-, hext, hslots⟩ := hsuccess s hs
  obtain ⟨-, hrefused, -, -⟩ := addAxis_outcome hnew ops repeating
  have htwice : r.Refuses repeating (.existingAttribute ⟨"C".toText, "p".toText⟩) :=
    .repeats ["p".toText, "q".toText] [] (by decide) rfl (by decide) (by decide)
  refine ⟨hnew, rfl, ⟨s, hs, hext, ?_, hslots 1 _ _ rfl⟩, (hrefused _).2 htwice⟩
  rw [remaining, hext.last, hext.maximum]
  rfl

end AttributeAccess.Registry
