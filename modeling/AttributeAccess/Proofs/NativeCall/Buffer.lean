import AttributeAccess.NativeCall
import AttributeAccess.Proofs.AccessPolicy.JsonForm
import AttributeAccess.Proofs.Exchange
import AttributeAccess.Proofs.Text.Utf8

/-!
# Buffers of native calls

What a native caller gets is decided by two things: whether its text has an answer, which is the
JSON text that the exchange of texts gives for the same expression (`Answers`, `Refused`), and
whether both pointers are there and leave room for it. The three ends have statuses of their own,
zero, the size of the answer and one, since no answer is a single byte (`Answers.one_lt_length`).
So the caller can tell from the status what became of its buffer and how much room a second call
needs (`parse_outcome`). What a text in UTF-8 is answered or refused with has no surrogates either,
so it can always be handed out.
-/

namespace AttributeAccess.NativeCall

variable {s : Settings} {text : Option Bytes} {data buffer : Bytes} {length : Int}
  {lastError : Option Text} {m : Memory} {o : Outcome}

/-! ## What is said of characters -/

theorem wellFormed_encode {t : Text} {p : AccessPolicy} {json : Text} (ht : t.WellFormed)
    (hp : AccessPolicy.ofExpression t = .ok p) (h : p.encode = .ok json) : json.WellFormed := by
  have hliterals : ∀ a ∈ p.literals, a.text.WellFormed := fun a ha =>
    ht.of_subset (Expression.text_subset_of_parse (Expression.parse_of_parseWithin hp) a ha)
  unfold AccessPolicy.encode AccessPolicy.encodeWithin at h
  split at h
  · cases h
    exact (AccessPolicy.readable_toJson (Nat.le_succ _)).wellFormed_compact
      (AccessPolicy.wellFormed_toJson hliterals)
  · cases h

theorem wellFormed_message {t : Text} {f : Fault} (ht : t.WellFormed)
    (h : (AccessPolicy.ofExpression t).bind AccessPolicy.encode = .error f) :
    f.message.WellFormed := by
  cases hp : AccessPolicy.ofExpression t with
  | error g =>
    rw [hp] at h
    cases h
    rcases Expression.parseWithin_eq_or AccessPolicy.nestingLimit t with heq | heq
    · exact Expression.wellFormed_message ht (heq.symm.trans hp)
    · cases heq.symm.trans hp
      simp [Fault.message, ExpressionFault.reason]
  | ok p =>
    rw [hp] at h
    simp only [Except.bind, AccessPolicy.encode, AccessPolicy.encodeWithin] at h
    split at h
    · cases h
    · cases h
      simp [Fault.message, ExpressionFault.reason]

theorem bytesOf_ofChars (cs : List Char) : bytesOf (.ofChars cs) = .ok (Utf8.encode cs) := by
  rw [bytesOf, Text.encode?, Text.chars?_ofChars]
  rfl

/-- The exchange gives characters for characters. -/
theorem exists_chars_of_parse {cs : List Char} {json : Text}
    (h : Exchange.parse (.ok s) (.string (.ofChars cs)) = .ok json) : ∃ ds, json = .ofChars ds := by
  rw [Exchange.parse_string] at h
  split at h
  · cases h
  · have hencode : (AccessPolicy.ofExpression (.ofChars cs) >>= AccessPolicy.encode) = .ok json :=
      Exchange.orFault_eq_ok.1 h
    obtain ⟨p, hp, hjson⟩ := bind_eq_ok.1 hencode
    exact Text.wellFormed_iff.1 (wellFormed_encode (Text.wellFormed_ofChars cs) hp hjson)

/-! ## The answer to a text -/

/-- A text in UTF-8 is answered with the JSON text that the exchange gives for it. -/
def Answers (s : Settings) (text : Option Bytes) (data : Bytes) : Prop :=
  ∃ t json, text = some (Utf8.encode t) ∧
    Exchange.parse (.ok s) (.string (.ofChars t)) = .ok (.ofChars json) ∧ data = Utf8.encode json

/-- Why a text has no answer. -/
inductive Refused (s : Settings) : Option Bytes → Prop
  | null : Refused s none
  | notUtf8 {bytes : Bytes} (h : ∀ t, Utf8.encode t ≠ bytes) : Refused s (some bytes)
  | rejected {t : List Char} {failure : Exchange.Failure}
      (h : Exchange.parse (.ok s) (.string (.ofChars t)) = .error failure) :
      Refused s (some (Utf8.encode t))

theorem Answers.not_refused (h : Answers s text data) : ¬ Refused s text := by
  obtain ⟨t, json, rfl, hjson, rfl⟩ := h
  intro hr
  generalize htext : some (Utf8.encode t) = text at hr
  cases hr with
  | null => cases htext
  | notUtf8 h => exact h t (Option.some.inj htext)
  | rejected h =>
    rw [← Utf8.encode_injective (Option.some.inj htext), hjson] at h
    cases h

theorem Answers.unique {other : Bytes} (h : Answers s text data) (ho : Answers s text other) :
    data = other := by
  obtain ⟨t, json, rfl, hjson, rfl⟩ := h
  obtain ⟨u, json', hu, hjson', rfl⟩ := ho
  rw [← Utf8.encode_injective (Option.some.inj hu), hjson] at hjson'
  rw [Text.ofChars_injective (Except.ok.inj hjson')]

theorem answers_or_refused (s : Settings) (text : Option Bytes) :
    (∃ data, Answers s text data) ∨ Refused s text := by
  cases text with
  | none => exact .inr .null
  | some bytes =>
    by_cases h : ∃ t, Utf8.encode t = bytes
    · obtain ⟨t, rfl⟩ := h
      cases hjson : Exchange.parse (.ok s) (.string (.ofChars t)) with
      | ok json =>
        obtain ⟨ds, rfl⟩ := exists_chars_of_parse hjson
        exact .inl ⟨_, t, ds, rfl, hjson, rfl⟩
      | error failure => exact .inr (.rejected hjson)
    · exact .inr (.notUtf8 (not_exists.1 h))

theorem two_le_length_toJson (p : AccessPolicy) : 2 ≤ p.toJson.compact.length := by
  cases p <;> simp [AccessPolicy.toJson, Json.compact, Json.quote]

/-- No answer has the size that stands for a failure. -/
theorem Answers.one_lt_length (h : Answers s text data) : 1 < data.length := by
  obtain ⟨t, json, -, hjson, rfl⟩ := h
  rw [Exchange.parse_string] at hjson
  split at hjson
  · cases hjson
  · have hencode : (AccessPolicy.ofExpression (.ofChars t) >>= AccessPolicy.encode) =
        .ok (.ofChars json) := Exchange.orFault_eq_ok.1 hjson
    obtain ⟨p, -, hp⟩ := bind_eq_ok.1 hencode
    unfold AccessPolicy.encode AccessPolicy.encodeWithin at hp
    split at hp
    · have hlength : p.toJson.compact.length = json.length := by
        rw [Except.ok.inj hp, Text.ofChars, List.length_map]
      have := two_le_length_toJson p
      have := Utf8.length_le_length_encode json
      omega
    · cases hp

/-! ## Reading the text -/

theorem parse_encode (s : Settings) (t : List Char) (lastError : Option Text) (m : Memory) :
    parse (.ok s) (some (Utf8.encode t)) lastError m =
      if s.expressionLimit < (Text.ofChars t).length then
        .ok (fail m (errorMessage ("boolean expression is ".toText ++
          Digits.ofNat (Text.ofChars t).length ++ " characters long, the limit is ".toText ++
          Digits.ofNat s.expressionLimit)))
      else
        match (AccessPolicy.ofExpression (.ofChars t)).bind AccessPolicy.encode with
        | .error f => .ok (fail m f.message)
        | .ok json => (bytesOf json).map fun data =>
            write "access policy".toText data lastError m := by
  have hread : Utf8.decode (Utf8.encode t) = .ok t := Utf8.decode_eq_ok_iff.2 rfl
  unfold parse
  simp only [hread]
  rfl

theorem parse_of_answers (h : Answers s text data) (lastError : Option Text) (m : Memory) :
    parse (.ok s) text lastError m = .ok (write "access policy".toText data lastError m) := by
  obtain ⟨t, json, rfl, hjson, rfl⟩ := h
  rw [Exchange.parse_string] at hjson
  rw [parse_encode]
  split at hjson
  · cases hjson
  · next hlimit =>
    simp only [if_neg hlimit, Exchange.orFault_eq_ok.1 hjson, bytesOf_ofChars, Except.map]

/-- What a refusal says depends on the text and the settings alone. -/
theorem parse_of_refused (h : Refused s text) :
    ∃ message, message.WellFormed ∧
      ∀ lastError m, parse (.ok s) text lastError m = .ok (fail m message) := by
  cases h with
  | null => exact ⟨_, by decide, fun _ _ => rfl⟩
  | @notUtf8 bytes h =>
    cases hread : Utf8.decode bytes with
    | ok t => exact absurd (Utf8.decode_eq_ok_iff.1 hread) (h t)
    | error f =>
      refine ⟨errorMessage ("invalid boolean expression: ".toText ++ f.message),
        by simp [errorMessage], fun _ _ => ?_⟩
      simp only [parse, hread]
  | @rejected t failure h =>
    simp only [parse_encode]
    rw [Exchange.parse_string] at h
    split at h
    · next hlimit => exact ⟨_, by simp [errorMessage], fun _ _ => if_pos hlimit⟩
    · next hlimit =>
      cases hp : (AccessPolicy.ofExpression (.ofChars t)).bind AccessPolicy.encode with
      | ok json =>
        rw [hp] at h
        cases h
      | error f =>
        exact ⟨f.message, wellFormed_message (Text.wellFormed_ofChars t) hp,
          fun _ _ => if_neg hlimit⟩

/-! ## Writing the answer -/

/-- The data stands at the start of the buffer, and all else but the length is as it was. -/
structure Written (data buffer : Bytes) (lastError : Option Text) (o : Outcome) : Prop where
  status : o.status = 0
  buffer : ∃ after, o.memory.buffer = some after ∧
    ∀ i, after[i]? = if i < data.length then data[i]? else buffer[i]?
  length : o.memory.length = some (data.length : Int)
  lastError : o.lastError = lastError

/-- The buffer is as it was, and status and length say how much room the data needs. -/
structure TooSmall (data buffer : Bytes) (o : Outcome) : Prop where
  status : o.status = data.length
  one_lt : 1 < o.status
  memory : o.memory = ⟨some buffer, some (data.length : Int)⟩
  recorded : o.lastError.isSome

/-- Nothing of what the caller lent has changed. -/
structure Failed (m : Memory) (o : Outcome) : Prop where
  status : o.status = 1
  memory : o.memory = m
  recorded : o.lastError.isSome

theorem failed_fail (m : Memory) (message : Text) : Failed m (fail m message) :=
  ⟨rfl, rfl, rfl⟩

theorem stored_eq {size : Nat} (h : size < 2 ^ 31) : stored size = size := by
  unfold stored
  exact Int.bmod_eq_of_le (by omega) (by omega)

theorem written_write (name : Text) (lastError : Option Text) (hsize : data.length < 2 ^ 31)
    (h : (data.length : Int) ≤ min length buffer.length) :
    Written data buffer lastError (write name data lastError ⟨some buffer, some length⟩) := by
  have hroom : ¬ min length (buffer.length : Int) < data.length := by omega
  simp only [write, if_neg hroom, stored_eq hsize]
  refine ⟨rfl, ⟨_, rfl, fun i => ?_⟩, rfl, rfl⟩
  split
  · next hi => exact List.getElem?_append_left hi
  · next hi =>
    rw [List.getElem?_append_right (by omega), List.getElem?_drop]
    congr 1
    omega

theorem tooSmall_write (name : Text) (lastError : Option Text) (hsize : data.length < 2 ^ 31)
    (hdata : 1 < data.length) (h : min length (buffer.length : Int) < data.length) :
    TooSmall data buffer (write name data lastError ⟨some buffer, some length⟩) := by
  simp only [write, if_pos h, stored_eq hsize]
  exact ⟨rfl, hdata, rfl, rfl⟩

theorem failed_write (name : Text) (data : Bytes) (lastError : Option Text)
    (h : m.buffer = none ∨ m.length = none) : Failed m (write name data lastError m) := by
  obtain ⟨buffer, length⟩ := m
  cases buffer with
  | none => exact failed_fail ..
  | some buffer =>
    cases length with
    | none => exact failed_fail ..
    | some length => simp at h

/-! ## Whole calls -/

/-- How a call ends, by the answer to the text and the room that the memory leaves for it. -/
inductive Ended (s : Settings) (text : Option Bytes) (lastError : Option Text) :
    Memory → Outcome → Prop
  | written {data buffer : Bytes} {length : Int} {o : Outcome} (answer : Answers s text data)
      (room : (data.length : Int) ≤ min length buffer.length)
      (h : Written data buffer lastError o) : Ended s text lastError ⟨some buffer, some length⟩ o
  | tooSmall {data buffer : Bytes} {length : Int} {o : Outcome} (answer : Answers s text data)
      (room : min length (buffer.length : Int) < data.length) (h : TooSmall data buffer o) :
      Ended s text lastError ⟨some buffer, some length⟩ o
  | failed {m : Memory} {o : Outcome} (cause : Refused s text ∨ m.buffer = none ∨ m.length = none)
      (h : Failed m o) : Ended s text lastError m o

theorem Answers.ended_write (h : Answers s text data) (hsize : data.length < 2 ^ 31) (name : Text)
    (lastError : Option Text) (m : Memory) :
    Ended s text lastError m (write name data lastError m) := by
  obtain ⟨_ | buffer, length⟩ := m
  · exact .failed (.inr (.inl rfl)) (failed_write name data lastError (.inl rfl))
  · cases length with
    | none => exact .failed (.inr (.inr rfl)) (failed_write name data lastError (.inr rfl))
    | some length =>
      by_cases hroom : (data.length : Int) ≤ min length buffer.length
      · exact .written h hroom (written_write name lastError hsize hroom)
      · have hshort := Int.not_le.1 hroom
        exact .tooSmall h hshort (tooSmall_write name lastError hsize h.one_lt_length hshort)

theorem Ended.status_eq_one_iff (h : Ended s text lastError m o) :
    o.status = 1 ↔ Refused s text ∨ m.buffer = none ∨ m.length = none := by
  cases h with
  | written answer room h => simp [h.status, answer.not_refused]
  | tooSmall answer room h =>
    have := h.one_lt
    simp only [answer.not_refused, reduceCtorEq, or_self, iff_false]
    omega
  | failed cause h => simp [h.status, cause]

/-- With enough room, a text that has an answer is answered. -/
theorem Answers.exists_written (h : Answers s text data) (hsize : data.length < 2 ^ 31)
    (lastError : Option Text) (hbuffer : data.length ≤ buffer.length)
    (hlength : (data.length : Int) ≤ length) :
    ∃ o, parse (.ok s) text lastError ⟨some buffer, some length⟩ = .ok o ∧
      Written data buffer lastError o := by
  refine ⟨_, parse_of_answers h lastError _, ?_⟩
  exact written_write _ lastError hsize (by omega)

/-- **Every call ends in one of three ways, and the status tells which.** It is zero if there is an
answer and room for it: the answer stands at the start of the buffer, and only the length has
changed besides. It is the size of the answer, more than one, if there is an answer and less room:
the length says so too, and the buffer is as it was. It is one exactly if the text has no answer or
a pointer is null, and then nothing has changed. The last two record an error, the first does not.
With the room that the status asks for, the same text is answered the next time. -/
theorem parse_outcome (s : Settings) (text : Option Bytes) (lastError : Option Text) (m : Memory)
    (hsize : ∀ data, Answers s text data → data.length < 2 ^ 31) :
    ∃ o, parse (.ok s) text lastError m = .ok o ∧ Ended s text lastError m o ∧
      (o.status = 1 ↔ Refused s text ∨ m.buffer = none ∨ m.length = none) ∧
      (1 < o.status → ∀ (later : Option Text) (buffer : Bytes) (length : Int),
        o.status ≤ buffer.length → (o.status : Int) ≤ length →
        ∃ data again, Answers s text data ∧
          parse (.ok s) text later ⟨some buffer, some length⟩ = .ok again ∧
          Written data buffer later again) := by
  have hended : ∃ o, parse (.ok s) text lastError m = .ok o ∧ Ended s text lastError m o := by
    rcases answers_or_refused s text with ⟨data, hdata⟩ | hrefused
    · exact ⟨_, parse_of_answers hdata lastError m, hdata.ended_write (hsize data hdata) ..⟩
    · obtain ⟨message, -, hparse⟩ := parse_of_refused hrefused
      exact ⟨_, hparse lastError m, .failed (.inl hrefused) (failed_fail m message)⟩
  obtain ⟨o, hparse, h⟩ := hended
  refine ⟨o, hparse, h, h.status_eq_one_iff, fun hone later buffer length hbuffer hlength => ?_⟩
  cases h with
  | written answer room h =>
    rw [h.status] at hone
    cases hone
  | @tooSmall data _ _ _ answer room h =>
    rw [h.status] at hbuffer hlength
    obtain ⟨again, hagain, hwritten⟩ :=
      answer.exists_written (hsize data answer) later hbuffer hlength
    exact ⟨data, again, answer, hagain, hwritten⟩
  | failed cause h =>
    rw [h.status] at hone
    omega

/-- The length promises more than the buffer has. With as many bytes as the status says there is
room, and the byte behind them is kept. -/
theorem parse_outcome_retried :
    let text := some (Utf8.encode "A::é && B::b".toList)
    let json := "\x7b\"And\":[\x7b\"Attr\":\"A::é\"\x7d,\x7b\"Attr\":\"B::b\"\x7d]\x7d"
    let data := Utf8.encode json.toList
    let buffer := List.replicate 43 7
    (∀ other, Answers .default text other → other.length < 2 ^ 31) ∧
      ∃ o, parse (.ok .default) text none ⟨some [7], some 100⟩ = .ok o ∧ o.status = 42 ∧
        ∃ again, parse (.ok .default) text o.lastError ⟨some buffer, some 42⟩ = .ok again ∧
          Written data buffer o.lastError again := by
  intro text json data buffer
  have hjson : Exchange.parse (.ok .default) (.string (.ofChars "A::é && B::b".toList)) =
      .ok (.ofChars json.toList) := by
    dsimp only [json]
    cbv
  have hanswer : Answers .default text data := ⟨"A::é && B::b".toList, json.toList, rfl, hjson, rfl⟩
  have hsize : ∀ other, Answers .default text other → other.length < 2 ^ 31 := fun other ho =>
    hanswer.unique ho ▸ by decide
  obtain ⟨o, hparse, -, -, hretry⟩ := parse_outcome .default text none ⟨some [7], some 100⟩ hsize
  have hstatus : o.status = 42 := by
    rw [parse_of_answers hanswer] at hparse
    cases hparse
    decide
  obtain ⟨other, again, ho, hagain, hwritten⟩ :=
    hretry (by omega) o.lastError buffer 42 (by rw [hstatus]; decide) (by rw [hstatus]; decide)
  rw [← hanswer.unique ho] at hwritten
  exact ⟨hsize, o, hparse, hstatus, again, hagain, hwritten⟩

end AttributeAccess.NativeCall
