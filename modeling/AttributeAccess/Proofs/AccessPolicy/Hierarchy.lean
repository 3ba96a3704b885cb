import AttributeAccess.Proofs.AccessPolicy.Enumeration
import AttributeAccess.Proofs.Registry.Agreement
import Mathlib.Data.Multiset.Bind

/-!
# Hierarchies followed

Following the hierarchies of the axes lowers the combinations of a policy: each place of a
combination keeps its attribute or takes a lower rank of it, whatever the other places do
(`Axes.lowered`). Listing lowers the literals before it multiplies them out. So its order is
another one than when the combinations are listed first and lowered then; that both give the same
combinations, each as often, is an induction on the policy in which a product of lowered lists is
rearranged (`spread_perm`). No axis of a registry repeats a name, so no lower rank counts twice
(`combinations_followed`).
-/

namespace AttributeAccess

/-! ## Lower ranks -/

/-- Where no name is repeated, the names in front of a name are all that are listed before it. -/
theorem takeWhile_ne_eq_filter {names : List Text} (h : names.Nodup) (name : Text) :
    names.takeWhile (· ≠ name) =
      names.filter fun lower => names.idxOf lower < names.idxOf name := by
  induction names with
  | nil => rfl
  | cons n names ih =>
    rw [List.nodup_cons] at h
    by_cases hn : n = name
    · simp [hn]
    · have htail : ∀ lower ∈ names, n ≠ lower := fun lower hl he => h.1 (he ▸ hl)
      rw [List.takeWhile_cons_of_pos (by simpa using hn), ih h.2,
        List.filter_cons_of_pos (by simp [List.idxOf_cons_ne _ hn])]
      refine congrArg (n :: ·) (List.filter_congr fun lower hl => ?_)
      simp only [List.idxOf_cons_ne _ (htail lower hl), List.idxOf_cons_ne _ hn,
        Nat.succ_lt_succ_iff]

theorem AxisRecord.below_eq_filter {r : AxisRecord} (h : r.names.Nodup) (name : Text) :
    r.below name = r.names.filter fun lower => r.Precedes lower name :=
  takeWhile_ne_eq_filter h name

namespace Axes

/-- No axis repeats a name. -/
def Distinct (axes : Axes) : Prop :=
  ∀ axis record, axes.get? axis = some record → record.names.Nodup

/-- The attributes listed before an attribute on its axis, if that is hierarchical. -/
def lowerRanks (axes : Axes) (a : Attribute) : List Attribute :=
  match axes.get? a.axis with
  | none => []
  | some record =>
    if record.hierarchical then
      (record.names.filter fun name => record.Precedes name a.name).map (⟨a.axis, ·⟩)
    else []

/-- The combinations that have in each place the attribute there or one of its lower ranks. -/
def lowered (axes : Axes) (c : Combination) : List Combination :=
  AccessPolicy.choices (c.map fun a => a :: axes.lowerRanks a)

variable {axes : Axes}

theorem standIns_true (h : axes.Distinct) :
    axes.standIns true = fun a => a :: axes.lowerRanks a := by
  funext a
  unfold standIns lowerRanks
  cases hr : axes.get? a.axis with
  | none => rfl
  | some record => simp only [AxisRecord.below_eq_filter (h _ _ hr), Bool.true_and]

end Axes

namespace AccessPolicy

/-! ## Products rearranged -/

section
variable {α β γ : Type}

theorem flatMap_perm_comm (as : List α) (bs : List β) (f : α → β → List γ) :
    (as.flatMap fun a => bs.flatMap fun b => f a b).Perm
      (bs.flatMap fun b => as.flatMap fun a => f a b) := by
  rw [← Multiset.coe_eq_coe]
  simp only [← Multiset.coe_bind]
  exact Multiset.bind_bind _ _

/-- A product of lists that are put together is put together from products. -/
theorem product_flatMap_perm (as : List α) (bs : List β) (f : α → List Combination)
    (g : β → List Combination) :
    (product (as.flatMap f) (bs.flatMap g)).Perm
      (as.flatMap fun a => bs.flatMap fun b => product (f a) (g b)) := by
  simp only [product, List.flatMap_assoc, List.map_flatMap]
  exact .flatMap_left _ fun a _ => flatMap_perm_comm _ _ _

end

section
variable {ls ls' rs rs' : List Combination}

theorem product_perm (hl : ls.Perm ls') (hr : rs.Perm rs') :
    (product ls rs).Perm (product ls' rs') :=
  hl.flatMap fun _ _ => hr.map _

theorem product_sublist (hl : ls.Sublist ls') (hr : rs.Sublist rs') :
    (product ls rs).Sublist (product ls' rs') :=
  (List.Sublist.flatMap_right _ fun _ _ => hr.map _).trans (hl.flatMap _)

theorem flatMap_product (ls rs : List Combination) (f : Combination → List Combination) :
    (product ls rs).flatMap f = ls.flatMap fun l => rs.flatMap fun r => f (l ++ r) := by
  simp only [product, List.flatMap_assoc, List.flatMap_map]

end

/-! ## Literals lowered, and combinations lowered -/

/-- Replacing the literals of a policy replaces, place by place, the attributes of its
combinations. -/
theorem spread_perm (standIns : Attribute → List Attribute) (t : AccessPolicy) :
    (t.spread standIns).Perm
      ((t.spread fun a => [a]).flatMap fun c => choices (c.map standIns)) := by
  induction t with
  | all => exact .refl _
  | attr a => simp [spread, choices, ← List.map_eq_flatMap]
  | and l r ihl ihr =>
    rw [spread, spread, flatMap_product]
    simp only [List.map_append, choices_append]
    exact (product_perm ihl ihr).trans (product_flatMap_perm _ _ _ _)
  | or l r ihl ihr =>
    rw [spread, spread, List.flatMap_append]
    exact ihl.append ihr

/-- More stand-ins give more combinations and leave the others in their order. -/
theorem spread_sublist {few many : Attribute → List Attribute}
    (h : ∀ a, (few a).Sublist (many a)) (t : AccessPolicy) :
    (t.spread few).Sublist (t.spread many) := by
  induction t with
  | all => exact .refl _
  | attr a => exact (h a).map _
  | and l r ihl ihr => exact product_sublist ihl ihr
  | or l r ihl ihr => exact ihl.append ihr

/-- **Following hierarchies is lowering.** In every state of every registry the axes list distinct
names. Over such axes, a policy that has combinations with its hierarchies followed has some
without. The former are, up to their order, the latter with each attribute kept or replaced by one
listed before it on its hierarchical axis, each place on its own; and the latter stand among the
former in their own order. -/
theorem combinations_followed :
    (∀ start, Registry.Origin start → ∀ ops, (start.run ops).axes.Distinct) ∧
    ∀ axes : Axes, axes.Distinct → ∀ (t : AccessPolicy) (cs : List Combination),
      t.combinations axes true = .ok cs →
        ∃ ds, t.combinations axes false = .ok ds ∧ cs.Perm (ds.flatMap axes.lowered) ∧
          ds.Sublist cs := by
  refine ⟨fun start h ops => ((Registry.Agreeing.origin h).run ops).distinct,
    fun axes hd t cs h => ?_⟩
  obtain ⟨hclear, rfl⟩ := combinations_eq_ok_iff.1 h
  refine ⟨t.spread (axes.standIns false),
    combinations_eq_ok_iff.2 ⟨fun a ha => ?_, rfl⟩, ?_⟩
  · exact Axes.fault?_false_eq_none_iff.2 (Axes.contains_of_fault?_eq_none (hclear a ha))
  · rw [Axes.standIns_true hd, Axes.standIns_false]
    exact ⟨spread_perm _ t, spread_sublist (fun a => by simp) t⟩

/-- The two orders differ: the product runs over the lowered ranks before it comes to `x`. -/
theorem combinations_followed_ranked :
    let rank (n : CodePoint) : Attribute := ⟨"L".toText, [n]⟩
    let x : Attribute := ⟨"D".toText, "x".toText⟩
    let ops : List Operation :=
      [.addAxis ⟨"L".toText, [("1".toText, .classic), ("2".toText, .hybridized)], true⟩,
        .addAxis ⟨"D".toText, [("x".toText, .classic)], false⟩, .rotate (rank (.char '1'))]
    let r := (Registry.empty 4).run ops
    let t : AccessPolicy :=
      .and (.attr (rank (.char '2'))) (.or (.attr (rank (.char '2'))) (.attr x))
    let cs : List Combination := [
      [rank (.char '2'), rank (.char '2')], [rank (.char '2'), rank (.char '1')],
      [rank (.char '2'), x], [rank (.char '1'), rank (.char '2')],
      [rank (.char '1'), rank (.char '1')], [rank (.char '1'), x]]
    let ds : List Combination := [[rank (.char '2'), rank (.char '2')], [rank (.char '2'), x]]
    r.axes.Distinct ∧ t.combinations r.axes true = .ok cs ∧
      t.combinations r.axes false = .ok ds ∧ cs.Perm (ds.flatMap r.axes.lowered) ∧
      cs ≠ ds.flatMap r.axes.lowered ∧ ds.Sublist cs := by
  intro rank x ops r t cs ds
  obtain ⟨hdistinct, hfollowed⟩ := combinations_followed
  have hnew : Registry.new 4 = .ok (Registry.empty 4) := rfl
  have hd : r.axes.Distinct := hdistinct _ (.new hnew) ops
  have hcs : t.combinations r.axes true = .ok cs := rfl
  obtain ⟨ds', hds', hperm, hsub⟩ := hfollowed r.axes hd t cs hcs
  have hds : t.combinations r.axes false = .ok ds := rfl
  cases Except.ok.inj (hds'.symm.trans hds)
  exact ⟨hd, hcs, hds, hperm, by decide, hsub⟩

end AccessPolicy

end AttributeAccess
