import AttributeAccess.Proofs.Expression.Faults

/-!
# How deep an expression is nested

Reading with a limit goes through the same levels in the same order as reading without one, and
stops at the first that lies too deep. So there is one number for each text, the levels that it
`Takes`, which the limit has to reach: below it the text is refused for its nesting, and from there
on the limit is not noticed (`Takes.parseWithin_eq`). Only levels that are read count: a text that
is refused for another reason is as deep as the place where that reason is found. The two kinds of
refusal cannot be mistaken for each other, since all but the nesting is found in some part of the
text, which the fault shows (`located_of_parse`).
-/

namespace AttributeAccess.Expression

/-! ## One level, whatever shows the shapes -/

section

variable {shape : Text → Except Fault Shape}
  {below : ∀ {t s}, shape t = .ok s → s.Below t.length}
  {t inner left operator right : Text} {f : Fault} {l : AccessPolicy} {m n : Nat}

/-- With a limit, an operator takes two levels and a pair of parentheses one. -/
theorem descendWithin_succ (limit : Nat) (t : Text) :
    descendWithin shape (limit + 1) t = match shape t with
      | .error f => .error (.fault f)
      | .ok (.literal a) => .ok (.attr a)
      | .ok (.group inner) => descendWithin shape limit inner
      | .ok (.operation left operator right) =>
        (descendWithin shape (limit - 1) left).bind fun l =>
          (descendWithin shape (limit - 1) right).bind fun r =>
            (connect operator l r).mapError .fault := by
  rw [descendWithin]
  cases shape t with
  | error f => rfl
  | ok s =>
    cases s with
    | literal a => rfl
    | group inner => rfl
    | operation left operator right =>
      simp only
      cases descendWithin shape (limit - 1) left with
      | error refusal => rfl
      | ok l => cases descendWithin shape (limit - 1) right <;> rfl

theorem descendWithin_zero (t : Text) : descendWithin shape 0 t = .error .tooDeep := by
  rw [descendWithin]

/-! ## The levels of a text -/

/-- Reading takes `n` levels: with fewer the text is refused for that, and with as many or more it
is read as without a limit. -/
def TakesIn (shape : Text → Except Fault Shape)
    (below : ∀ {t s}, shape t = .ok s → s.Below t.length) (t : Text) (n : Nat) : Prop :=
  ∀ limit, descendWithin shape limit t =
    if limit < n then .error .tooDeep else (descend shape below t).mapError .fault

namespace TakesIn

theorem pos (h : TakesIn shape below t n) : 0 < n := by
  rcases Nat.eq_zero_or_pos n with rfl | hn
  · have hzero := h 0
    rw [descendWithin_zero, if_neg (Nat.lt_irrefl 0)] at hzero
    cases hp : descend shape below t with
    | ok p => simp [hp, Except.mapError] at hzero
    | error f => simp [hp, Except.mapError] at hzero
  · exact hn

/-- One level, and what is below it. -/
theorem of_succ (h : ∀ limit, descendWithin shape (limit + 1) t =
      if limit < n then .error .tooDeep else (descend shape below t).mapError .fault) :
    TakesIn shape below t (n + 1) := by
  intro limit
  cases limit with
  | zero => rw [descendWithin_zero, if_pos (Nat.succ_pos n)]
  | succ limit => simp only [h limit, Nat.add_lt_add_iff_right]

theorem of_shape_error (h : shape t = .error f) : TakesIn shape below t 1 := by
  refine of_succ fun limit => ?_
  rw [descendWithin_succ, descend_eq, h, if_neg (Nat.not_lt_zero _)]
  rfl

theorem literal {a : Attribute} (h : shape t = .ok (.literal a)) : TakesIn shape below t 1 := by
  refine of_succ fun limit => ?_
  rw [descendWithin_succ, descend_eq, h, if_neg (Nat.not_lt_zero _)]
  rfl

theorem group (h : shape t = .ok (.group inner)) (hinner : TakesIn shape below inner n) :
    TakesIn shape below t (n + 1) := by
  refine of_succ fun limit => ?_
  rw [descendWithin_succ, descend_eq t, h]
  exact hinner limit

/-- Behind a left operand that is refused nothing is read. -/
theorem left_error (h : shape t = .ok (.operation left operator right))
    (hf : descend shape below left = .error f) (hleft : TakesIn shape below left n) :
    TakesIn shape below t (n + 2) := by
  have hpos := hleft.pos
  refine of_succ fun limit => ?_
  rw [descendWithin_succ, descend_eq t, h]
  simp only [hleft (limit - 1), hf]
  by_cases hlimit : limit - 1 < n
  · rw [if_pos hlimit, if_pos (by omega)]
    rfl
  · rw [if_neg hlimit, if_neg (by omega)]
    rfl

/-- The deeper one of the two operands counts. -/
theorem operation (h : shape t = .ok (.operation left operator right))
    (hl : descend shape below left = .ok l) (hleft : TakesIn shape below left m)
    (hright : TakesIn shape below right n) : TakesIn shape below t (max m n + 2) := by
  have hpos := hleft.pos
  refine of_succ fun limit => ?_
  rw [descendWithin_succ, descend_eq t, h]
  simp only [hleft (limit - 1), hl]
  by_cases hm : limit - 1 < m
  · rw [if_pos hm, if_pos (by omega)]
    rfl
  · rw [if_neg hm]
    simp only [Except.mapError, Except.bind, hright (limit - 1)]
    by_cases hn : limit - 1 < n
    · rw [if_pos hn, if_pos (by omega)]
    · rw [if_neg hn, if_neg (by omega)]
      cases descend shape below right <;> rfl

end TakesIn

/-- Each level is at least one character shorter and costs two levels at most. -/
theorem exists_takesIn (t : Text) : ∃ n, n ≤ 2 * t.length + 1 ∧ TakesIn shape below t n := by
  induction hlen : t.length using Nat.strongRecOn generalizing t with
  | _ k ih =>
    subst hlen
    cases hs : shape t with
    | error f => exact ⟨1, by omega, .of_shape_error hs⟩
    | ok s =>
      have hbelow := below hs
      cases s with
      | literal a => exact ⟨1, by omega, .literal hs⟩
      | group inner =>
        have hinner : inner.length < t.length := hbelow
        obtain ⟨n, hn, htakes⟩ := ih _ hinner inner rfl
        exact ⟨n + 1, by omega, htakes.group hs⟩
      | operation left operator right =>
        obtain ⟨hleft, hright⟩ : left.length < t.length ∧ right.length < t.length := hbelow
        obtain ⟨m, hm, hmleft⟩ := ih _ hleft left rfl
        obtain ⟨n, hn, hnright⟩ := ih _ hright right rfl
        cases hl : descend shape below left with
        | error f => exact ⟨m + 2, by omega, hmleft.left_error hs hl⟩
        | ok l => exact ⟨max m n + 2, by omega, hmleft.operation hs hl hnright⟩

end

/-! ## Expressions -/

/-- The refusal of a text for its nesting. -/
def tooDeep (t : Text) : Except Fault AccessPolicy :=
  .error (.expression (.parsedTooDeep t.length))

/-- Reading an expression takes `n` levels. -/
def Takes (t : Text) (n : Nat) : Prop := TakesIn shape below_of_shape t n

theorem exists_takes (t : Text) : ∃ n, n ≤ 2 * t.length + 1 ∧ Takes t n :=
  exists_takesIn t

theorem Takes.parseWithin_eq {t : Text} {n : Nat} (h : Takes t n) (limit : Nat) :
    parseWithin limit t = if limit < n then tooDeep t else parse t := by
  unfold parseWithin
  rw [h limit]
  by_cases hlimit : limit < n
  · rw [if_pos hlimit, if_pos hlimit]
    rfl
  · rw [if_neg hlimit, if_neg hlimit]
    unfold parse
    cases descend shape below_of_shape t <;> rfl

theorem parseWithin_eq_or (limit : Nat) (t : Text) :
    parseWithin limit t = parse t ∨ parseWithin limit t = tooDeep t := by
  obtain ⟨n, -, h⟩ := exists_takes t
  rw [h.parseWithin_eq]
  split
  · exact .inr rfl
  · exact .inl rfl

theorem parseWithin_of_lt {limit : Nat} {t : Text} (h : 2 * t.length < limit) :
    parseWithin limit t = parse t := by
  obtain ⟨n, hn, htakes⟩ := exists_takes t
  rw [htakes.parseWithin_eq, if_neg (by omega)]

/-- What is refused for its nesting under a limit is not refused for that without one. -/
theorem parse_ne_tooDeep (t : Text) : parse t ≠ tooDeep t := by
  intro h
  rcases located_of_parse h with ⟨⟨cause, e, hcause, he⟩, -⟩ | ⟨operator, hop, -⟩
  · cases hcause
    cases he
  · cases hop

/-- **A limit on the nesting only refuses.** Within every limit a text is read as without one, to
the same tree or the same fault, or it is refused for its nesting, which never happens without a
limit. What is not refused for that within one limit is read alike within every larger one, and a
limit of more than twice the length refuses nothing. -/
theorem parseWithin_only_refuses (t : Text) :
    (∀ limit, parseWithin limit t = parse t ∨ parseWithin limit t = tooDeep t) ∧
      (∀ limit more, limit ≤ more → parseWithin limit t ≠ tooDeep t →
        parseWithin more t = parseWithin limit t) ∧
      parse t ≠ tooDeep t ∧ ∀ limit, 2 * t.length < limit → parseWithin limit t = parse t := by
  refine ⟨fun limit => parseWithin_eq_or limit t, fun limit more hle hne => ?_,
    parse_ne_tooDeep t, fun limit => parseWithin_of_lt⟩
  obtain ⟨n, -, h⟩ := exists_takes t
  rw [h.parseWithin_eq] at hne
  have hreached : ¬ limit < n := fun hlt => hne (if_pos hlt)
  rw [h.parseWithin_eq, h.parseWithin_eq, if_neg hreached, if_neg (by omega)]

/-- The group takes three levels and the operator two. A limit of four is met inside the group, and
from five on the right operand is refused instead. -/
theorem parseWithin_only_refuses_unclosed :
    let t := "(A::b || C::d) && (E::f".toText
    let unclosed : Fault := .expression (.closingMissing "(E::f".toText "E::f".toText)
    parseWithin 4 t = tooDeep t ∧ parseWithin 5 t ≠ tooDeep t ∧
      parseWithin 980 t = parseWithin 5 t ∧ parse t = .error unclosed := by
  have hfour : parseWithin 4 "(A::b || C::d) && (E::f".toText =
      .error (.expression (.parsedTooDeep 23)) := by cbv
  have hfive : parseWithin 5 "(A::b || C::d) && (E::f".toText =
      .error (.expression (.closingMissing "(E::f".toText "E::f".toText)) := by cbv
  intro t unclosed
  obtain ⟨-, hmono, -, hlarge⟩ := parseWithin_only_refuses t
  have hne : parseWithin 5 t ≠ tooDeep t := by
    intro h
    cases hfive.symm.trans h
  have hsame : parseWithin 980 t = parseWithin 5 t := hmono 5 980 (by decide) hne
  exact ⟨hfour, hne, hsame, (hlarge 980 (by decide)).symm.trans (hsame.trans hfive)⟩

end AttributeAccess.Expression
