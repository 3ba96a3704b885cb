import AttributeAccess.Proofs.NativeCall.Buffer
import Mathlib.Data.List.Induction

/-!
# The last error of native calls

The last error is a cell that calls overwrite and that one of them empties. Seen from a whole
history of calls it is no more than this: of the calls since a message was taken, the newest that
recorded one (`latest?`). Each call either leaves the cell alone, or records a message that does not
depend on what the cell held, or takes what it held (`Occasion.after_eq`); so the cell after a history
is its latest message (`lastErrorAfter_eq`), and that is what the next caller reads
(`takeError_latest`). Messages hold no surrogates, so none is lost for want of an encoding
(`wellFormed_lastErrorAfter`). What is read ends with a zero if the buffer has a byte to put one in,
which the declared length does not tell (`takeError_terminated_iff`).

A run of calls goes through such histories: each of its calls finds the last error of the calls in
front of it (`runAll_concat`).
-/

namespace AttributeAccess.NativeCall

/-- A call and the settings that it finds. -/
structure Occasion where
  settings : Reading Settings
  call : Call

/-- The call empties the cell: both pointers are there, and the length admits a byte. -/
def Call.takes : Call → Bool
  | takeError ⟨some _, some length⟩ => 1 ≤ length
  | _ => false

namespace Occasion

/-- The last error after a call. -/
def after (lastError : Option Text) (c : Occasion) : Option Text :=
  (c.call.run c.settings lastError).2

/-- The message that a call records, which is what it leaves in an empty cell. -/
def recorded? (c : Occasion) : Option Text :=
  c.after none

end Occasion

/-- The last error after calls made one after another, the cell being empty at first. -/
def lastErrorAfter (history : List Occasion) : Option Text :=
  history.foldl Occasion.after none

/-- Of the calls since a message was taken, the newest that recorded one. -/
def latest? (history : List Occasion) : Option Text :=
  (history.reverse.takeWhile fun c => !c.call.takes).findSome? Occasion.recorded?

/-! ## Runs -/

/-- The call at the end of a run is answered on the last error of the calls in front of it, unless
one of these has broken down. -/
theorem runAll_concat (settings : Reading Settings) (calls : List Call) (call : Call) :
    runAll settings none (calls ++ [call]) = (do
      let answers ← runAll settings none calls
      let answer ← (call.run settings (lastErrorAfter (calls.map fun c => ⟨settings, c⟩))).1
      .ok (answers ++ [answer])) := by
  have hrun : ∀ lastError, runAll settings lastError (calls ++ [call]) = (do
      let answers ← runAll settings lastError calls
      let answer ← (call.run settings
        ((calls.map fun c => ⟨settings, c⟩).foldl Occasion.after lastError)).1
      .ok (answers ++ [answer])) := by
    induction calls with
    | nil =>
      intro lastError
      simp [runAll, bind, Except.bind]
    | cons first calls ih =>
      intro lastError
      simp only [List.cons_append, runAll, ih, List.map_cons, List.foldl_cons, Occasion.after,
        bind_assoc]
      rfl
  exact hrun none

/-! ## One call -/

/-- An outcome for each last error: it either records the same message over all of them, with a
status other than zero, or keeps them, with status zero. -/
def Uniform (f : Option Text → Outcome) : Prop :=
  (∃ status memory message, status ≠ 0 ∧ message.WellFormed ∧
    ∀ lastError, f lastError = ⟨status, memory, some message⟩) ∨
    ∃ memory, ∀ lastError, f lastError = ⟨0, memory, lastError⟩

theorem uniform_fail (m : Memory) {message : Text} (h : message.WellFormed) :
    Uniform fun _ => fail m message :=
  .inl ⟨1, m, message, Nat.one_ne_zero, h, fun _ => rfl⟩

theorem uniform_write {name : Text} (hname : name.WellFormed) {data : Bytes}
    (hdata : 0 < data.length) (m : Memory) :
    Uniform fun lastError => write name data lastError m := by
  have hnull : (nullMessage (name ++ " pointer should point to pre-allocated memory".toText)
      ).WellFormed := by simp [nullMessage, hname]
  obtain ⟨_ | buffer, length⟩ := m
  · exact uniform_fail _ hnull
  · cases length with
    | none => exact uniform_fail _ hnull
    | some length =>
      by_cases hroom : min length (buffer.length : Int) < data.length
      · simp only [write, if_pos hroom]
        refine .inl ⟨_, _, _, Nat.ne_of_gt hdata, ?_, fun _ => rfl⟩
        simp [tooSmallMessage, errorMessage, hname]
      · simp only [write, if_neg hroom]
        exact .inr ⟨_, fun _ => rfl⟩

/-- Reading a text breaks down or ends in a uniform outcome. -/
theorem parse_uniform (settings : Reading Settings) (text : Option Bytes) (m : Memory) :
    (∃ b, ∀ lastError, parse settings text lastError m = .error b) ∨
      ∃ f, Uniform f ∧ ∀ lastError, parse settings text lastError m = .ok (f lastError) := by
  cases settings with
  | ok s =>
    refine .inr ?_
    rcases answers_or_refused s text with ⟨data, hdata⟩ | hrefused
    · have hpos : 0 < data.length := Nat.lt_of_succ_lt hdata.one_lt_length
      exact ⟨_, uniform_write (by decide) hpos m,
        fun lastError => parse_of_answers hdata lastError m⟩
    · obtain ⟨message, hmessage, hparse⟩ := parse_of_refused hrefused
      exact ⟨_, uniform_fail m hmessage, fun lastError => hparse lastError m⟩
  | error issues =>
    cases text with
    | none => exact .inr ⟨_, uniform_fail m (by decide), fun _ => rfl⟩
    | some bytes =>
      cases hread : Utf8.decode bytes with
      | error f =>
        have hmessage : (errorMessage
            ("invalid boolean expression: ".toText ++ f.message)).WellFormed := by
          simp [errorMessage]
        refine .inr ⟨_, uniform_fail m hmessage, fun _ => ?_⟩
        simp only [parse, hread]
      | ok t =>
        refine .inl ⟨.invalid issues, fun _ => ?_⟩
        simp only [parse, hread]
        rfl

theorem wellFormed_setError (text : Option Bytes) : (setError text).2.WellFormed := by
  cases text with
  | none => decide
  | some bytes =>
    cases hread : Utf8.decode bytes <;> simp [setError, hread, errorMessage]

theorem exists_of_takes {m : Memory} (h : (Call.takeError m).takes) :
    ∃ buffer length, m = ⟨some buffer, some length⟩ ∧ 1 ≤ length := by
  obtain ⟨_ | buffer, _ | length⟩ := m <;> try cases h
  exact ⟨buffer, length, rfl, of_decide_eq_true h⟩

/-- The message is handed out, if it can be encoded. -/
theorem takeError_eq_map (lastError : Option Text) (buffer : Bytes) {length : Int}
    (h : 1 ≤ length) :
    takeError lastError ⟨some buffer, some length⟩ =
      (messageBytes lastError).map fun message => ⟨0, handOut message buffer length, none⟩ := by
  simp only [takeError, if_neg (Int.not_lt.2 h)]

/-- A refusal to hand the message out changes nothing. -/
theorem takeError_of_not_takes {m : Memory} (h : (Call.takeError m).takes = false)
    (lastError : Option Text) : takeError lastError m = .ok ⟨1, m, lastError⟩ := by
  obtain ⟨_ | buffer, _ | length⟩ := m
  · rfl
  · rfl
  · rfl
  · have hlength : length < 1 := Int.not_le.1 (of_decide_eq_false h)
    simp [takeError, hlength]

/-- Where the message is taken, nothing is left of it, also if it cannot be encoded. -/
theorem run_takeError_of_takes {m : Memory} (h : (Call.takeError m).takes)
    (settings : Reading Settings) (lastError : Option Text) :
    ((Call.takeError m).run settings lastError).2 = none := by
  obtain ⟨buffer, length, rfl, hlength⟩ := exists_of_takes h
  rw [Call.run, takeError_eq_map lastError buffer hlength]
  cases messageBytes lastError <;> rfl

theorem run_takeError_of_not_takes {m : Memory} (h : (Call.takeError m).takes = false)
    (settings : Reading Settings) (lastError : Option Text) :
    (Call.takeError m).run settings lastError = (.ok ⟨1, some m⟩, lastError) := by
  rw [Call.run, takeError_of_not_takes h]
  rfl

theorem run_parse_of_ok {settings : Reading Settings} {text : Option Bytes} {m : Memory}
    {lastError : Option Text} {o : Outcome} (h : parse settings text lastError m = .ok o) :
    (Call.parse text m).run settings lastError = (.ok ⟨o.status, some o.memory⟩, o.lastError) := by
  rw [Call.run, h]
  rfl

theorem run_parse_of_error {settings : Reading Settings} {text : Option Bytes} {m : Memory}
    {lastError : Option Text} {b : Breakdown}
    (h : parse settings text lastError m = .error b) :
    (Call.parse text m).run settings lastError = (.error b, lastError) := by
  rw [Call.run, h]
  rfl

namespace Occasion

/-- A call that got an answer recorded an error: reading a text unless its status is zero, setting
an error always, and taking one never. -/
def Recorded (c : Occasion) (answer : Answer) : Prop :=
  match c.call with
  | .parse .. => answer.status ≠ 0
  | .setError _ => True
  | .takeError _ => False

variable {c : Occasion} {lastError : Option Text}

theorem recorded?_takeError (settings : Reading Settings) (m : Memory) :
    recorded? ⟨settings, .takeError m⟩ = none := by
  unfold recorded? after
  cases htakes : (Call.takeError m).takes with
  | true => exact run_takeError_of_takes htakes settings none
  | false => rw [run_takeError_of_not_takes htakes]

/-- What a call does to the cell. -/
theorem after_eq (c : Occasion) (lastError : Option Text) :
    c.after lastError = if c.call.takes then none else c.recorded?.or lastError := by
  obtain ⟨settings, call⟩ := c
  cases call with
  | parse text m =>
    have htakes : (Call.parse text m).takes = false := rfl
    simp only [recorded?, after, htakes, Bool.false_eq_true, if_false]
    rcases parse_uniform settings text m with ⟨b, hparse⟩ | ⟨f, hf, hparse⟩
    · rw [run_parse_of_error (hparse lastError), run_parse_of_error (hparse none), Option.none_or]
    · rw [run_parse_of_ok (hparse lastError), run_parse_of_ok (hparse none)]
      rcases hf with ⟨status, memory, message, -, -, hf⟩ | ⟨memory, hf⟩
      · simp only [hf, Option.some_or]
      · simp only [hf, Option.none_or]
  | setError text => rfl
  | takeError m =>
    cases htakes : (Call.takeError m).takes with
    | true => exact run_takeError_of_takes htakes settings lastError
    | false =>
      rw [recorded?_takeError, Option.none_or]
      simp only [after, run_takeError_of_not_takes htakes, Bool.false_eq_true, if_false]

/-- Which calls record a message. -/
theorem recorded?_isSome_iff {answer : Answer}
    (h : (c.call.run c.settings lastError).1 = .ok answer) :
    c.recorded?.isSome ↔ c.Recorded answer := by
  obtain ⟨settings, call⟩ := c
  cases call with
  | parse text m =>
    rw [recorded?, after, Recorded]
    rcases parse_uniform settings text m with ⟨b, hparse⟩ | ⟨f, hf, hparse⟩
    · rw [run_parse_of_error (hparse lastError)] at h
      cases h
    · rw [run_parse_of_ok (hparse lastError)] at h
      cases h
      rw [run_parse_of_ok (hparse none)]
      rcases hf with ⟨status, memory, message, hstatus, -, hf⟩ | ⟨memory, hf⟩
      · simp [hf, hstatus]
      · simp [hf]
  | setError text => exact ⟨fun _ => trivial, fun _ => rfl⟩
  | takeError m =>
    rw [recorded?_takeError]
    simp [Recorded]

theorem wellFormed_recorded? (c : Occasion) : ∀ t ∈ c.recorded?, t.WellFormed := by
  obtain ⟨settings, call⟩ := c
  intro t ht
  cases call with
  | parse text m =>
    rw [recorded?, after] at ht
    rcases parse_uniform settings text m with ⟨b, hparse⟩ | ⟨f, hf, hparse⟩
    · rw [run_parse_of_error (hparse none)] at ht
      cases ht
    · rw [run_parse_of_ok (hparse none)] at ht
      rcases hf with ⟨status, memory, message, -, hmessage, hf⟩ | ⟨memory, hf⟩
      · rw [hf] at ht
        cases ht
        exact hmessage
      · rw [hf] at ht
        cases ht
  | setError text =>
    cases ht
    exact wellFormed_setError text
  | takeError m =>
    rw [recorded?_takeError] at ht
    cases ht

end Occasion

/-! ## Histories -/

theorem latest?_concat (history : List Occasion) (c : Occasion) :
    latest? (history ++ [c]) =
      if c.call.takes then none else c.recorded?.or (latest? history) := by
  unfold latest?
  rw [List.reverse_concat, List.takeWhile_cons]
  cases c.call.takes with
  | true => rfl
  | false =>
    simp only [Bool.not_false, if_true, Bool.false_eq_true, if_false, List.findSome?_cons]
    cases c.recorded? <;> rfl

/-- After a history the cell holds its latest message. -/
theorem lastErrorAfter_eq (history : List Occasion) : lastErrorAfter history = latest? history := by
  induction history using List.reverseRecOn with
  | nil => rfl
  | append_singleton history c ih =>
    rw [latest?_concat, ← ih, ← c.after_eq]
    exact List.foldl_append

/-- What calls leave in the cell can be handed out. -/
theorem wellFormed_lastErrorAfter (history : List Occasion) :
    ((lastErrorAfter history).getD []).WellFormed := by
  rw [lastErrorAfter_eq]
  cases hlatest : latest? history with
  | none => exact Text.wellFormed_nil
  | some t =>
    obtain ⟨c, -, hc⟩ := List.exists_of_findSome?_eq_some hlatest
    exact c.wellFormed_recorded? t hc

/-! ## Taking a message -/

theorem messageBytes_of_chars {lastError : Option Text} {cs : List Char}
    (h : lastError.getD [] = .ofChars cs) :
    messageBytes lastError = .ok ((Utf8.encode cs).filter (· ≠ 0)) := by
  rw [messageBytes, h, bytesOf_ofChars]
  rfl

/-- What is handed out: as much of the message as leaves room for a zero, and zeros up to the end of
what may be written. -/
theorem exists_handOut (message : Bytes) {buffer : Bytes} {length : Int}
    (hbuffer : 1 ≤ buffer.length) (hlength : 1 ≤ length) :
    let capacity := min length.toNat buffer.length
    let count := min (capacity - 1) message.length
    ∃ after, handOut message buffer length = ⟨some after, some (count : Int)⟩ ∧
      ∀ i, after[i]? =
        if i < count then message[i]? else if i < capacity then some 0 else buffer[i]? := by
  intro capacity count
  have hcapacity : 1 ≤ capacity := by omega
  have htaken : (message.take (capacity - 1)).length = count := List.length_take
  have hcount : min ((capacity : Int) - 1) message.length = (count : Int) := by omega
  refine ⟨message.take (capacity - 1) ++ List.replicate (capacity - count) 0 ++
    buffer.drop capacity, ?_, fun i => ?_⟩
  · rw [← hcount, ← htaken]
    rfl
  · rw [List.append_assoc, List.getElem?_append, htaken]
    split
    · next hi => rw [List.getElem?_take_of_lt (by omega)]
    · next hi =>
      rw [List.getElem?_append, List.length_replicate]
      split
      · next hzero => rw [List.getElem?_replicate_of_lt hzero, if_pos (by omega)]
      · next hbeyond =>
        rw [if_neg (by omega), List.getElem?_drop]
        congr 1
        omega

/-- **The latest failure is reported once.** After any history of calls, with settings that may change
between them or not load, whoever lends at least one byte gets status zero, as much of the message
as leaves room for a zero, zeros up to the end of what it lent, and the number of message bytes as
the length. The message is that of the newest call that recorded one since a message was last taken,
in UTF-8, which it always has, without its zero bytes, and empty if there is none. A call records
one exactly if it sets an error, or reads a text and does not end with status zero. A message is
taken exactly when the status is zero; otherwise the call changes nothing. -/
theorem takeError_latest (history : List Occasion) (settings : Reading Settings) {buffer : Bytes}
    {length : Int} (hbuffer : 1 ≤ buffer.length) (hlength : 1 ≤ length) :
    (∃ cs, (latest? history).getD [] = .ofChars cs ∧
      let message := (Utf8.encode cs).filter (· ≠ 0)
      let capacity := min length.toNat buffer.length
      let count := min (capacity - 1) message.length
      ∃ after, (Call.takeError ⟨some buffer, some length⟩).run settings (lastErrorAfter history) =
          (.ok ⟨0, some ⟨some after, some (count : Int)⟩⟩, none) ∧
        ∀ i, after[i]? =
          if i < count then message[i]? else if i < capacity then some 0 else buffer[i]?) ∧
    (∀ (c : Occasion) lastError answer, (c.call.run c.settings lastError).1 = .ok answer →
      (c.recorded?.isSome ↔ c.Recorded answer)) ∧
    ∀ m lastError, (∀ o, takeError lastError m = .ok o →
        (o.status = 0 ↔ (Call.takeError m).takes = true)) ∧
      ((Call.takeError m).takes = false → takeError lastError m = .ok ⟨1, m, lastError⟩) := by
  refine ⟨?_, fun c lastError answer h => c.recorded?_isSome_iff h, fun m lastError => ⟨?_, ?_⟩⟩
  · have hwell := wellFormed_lastErrorAfter history
    rw [lastErrorAfter_eq] at hwell
    obtain ⟨cs, hcs⟩ := Text.wellFormed_iff.1 hwell
    obtain ⟨after, hafter, hbytes⟩ :=
      exists_handOut ((Utf8.encode cs).filter (· ≠ 0)) hbuffer hlength
    refine ⟨cs, hcs, after, ?_, hbytes⟩
    rw [lastErrorAfter_eq, Call.run, takeError_eq_map _ buffer hlength, messageBytes_of_chars hcs,
      ← hafter]
    rfl
  · intro o ho
    cases htakes : (Call.takeError m).takes with
    | true =>
      obtain ⟨buffer, length, rfl, hlength⟩ := exists_of_takes htakes
      rw [takeError_eq_map lastError buffer hlength] at ho
      obtain ⟨message, -, rfl⟩ := map_eq_ok.1 ho
      simp
    | false =>
      rw [takeError_of_not_takes htakes] at ho
      cases ho
      simp
  · exact fun htakes => takeError_of_not_takes htakes lastError

/-- A null text and then a message of the caller; a text that is answered and a refusal to hand
the message out leave it in place. The message needs thirteen of the fourteen bytes lent. -/
theorem takeError_latest_kept :
    let buffer : Bytes := List.replicate 20 7
    let memory : Memory := ⟨some buffer, some 20⟩
    let history : List Occasion := [
      ⟨.ok .default, .parse none memory⟩,
      ⟨.error [], .setError (some (Utf8.encode "é".toList))⟩,
      ⟨.ok .default, .parse (some (Utf8.encode "A::b".toList)) memory⟩,
      ⟨.ok .default, .takeError ⟨some [7], some 0⟩⟩]
    latest? history = some (errorMessage "é".toText) ∧
      ∃ after, (Call.takeError ⟨some buffer, some 14⟩).run (.error [])
          (lastErrorAfter history) = (.ok ⟨0, some ⟨some after, some 13⟩⟩, none) ∧
        after[10]? = some 32 ∧ after[11]? = some 0xC3 ∧ after[13]? = some 0 ∧
        after[14]? = some 7 := by
  intro buffer memory history
  have hanswer : Answers .default (some (Utf8.encode "A::b".toList))
      (Utf8.encode "\x7b\"Attr\":\"A::b\"\x7d".toList) := ⟨"A::b".toList, _, rfl, by cbv, rfl⟩
  have hanswered : Occasion.recorded?
      ⟨.ok .default, .parse (some (Utf8.encode "A::b".toList)) memory⟩ = none := by
    rw [Occasion.recorded?, Occasion.after, run_parse_of_ok (parse_of_answers hanswer ..)]
    decide
  have hset : Occasion.recorded? ⟨.error [], .setError (some (Utf8.encode "é".toList))⟩ =
      some (errorMessage "é".toText) := by
    simp only [Occasion.recorded?, Occasion.after, Call.run, setError, Utf8.decode_eq_ok_iff.2 rfl]
    rfl
  have hlatest : latest? history = some (errorMessage "é".toText) := by
    rw [show history = [_] ++ [_] ++ [_] ++ [_] from rfl, latest?_concat, latest?_concat,
      latest?_concat, hset, hanswered, Occasion.recorded?_takeError]
    rfl
  have hbuffer : 1 ≤ buffer.length := by decide
  have hlength : (1 : Int) ≤ 14 := by decide
  obtain ⟨⟨cs, hcs, after, htake, hafter⟩, -, -⟩ :=
    takeError_latest history (.error []) hbuffer hlength
  have hchars : errorMessage "é".toText = .ofChars "FFI error: é".toList := by decide
  rw [hlatest] at hcs
  obtain rfl := Text.ofChars_injective (hchars.symm.trans hcs)
  refine ⟨hlatest, after, htake, ?_, ?_, ?_, ?_⟩ <;> rw [hafter] <;> decide

/-! ## Room for the zero -/

/-- A length within the room that was lent, with a zero in its place. -/
def Terminated (room : Int) (after : Bytes) (n : Int) : Prop :=
  0 ≤ n ∧ n < room ∧ after[n.toNat]? = some 0

/-- Handing out a message does not change the size of the buffer. -/
theorem length_handOut {message buffer after : Bytes} {length n : Int}
    (h : handOut message buffer length = ⟨some after, some n⟩) :
    after.length = buffer.length := by
  cases h
  simp only [List.length_append, List.length_replicate, List.length_drop, List.length_take]
  omega

/-- Only the length that is declared is checked. Where there is no byte behind it, the zero that
does not fit is counted all the same. -/
theorem handOut_nil (message : Bytes) (length : Int) :
    handOut message [] length = ⟨some [], some (-1)⟩ := by
  have hcapacity : min length.toNat ([] : Bytes).length = 0 := Nat.min_zero _
  have hwritten : min (((0 : Nat) : Int) - 1) (message.length : Int) = -1 := by omega
  simp only [handOut, hcapacity, hwritten]
  rfl

/-- A buffer that has a byte gets its zero, and nothing happens to it outside the room. -/
theorem exists_handOut_terminated (message : Bytes) {buffer : Bytes} {length : Int}
    (hbuffer : 1 ≤ buffer.length) (hlength : 1 ≤ length) :
    ∃ after n, handOut message buffer length = ⟨some after, some n⟩ ∧
      Terminated (min length buffer.length) after n ∧
      ∀ i : Nat, min length buffer.length ≤ i → after[i]? = buffer[i]? := by
  obtain ⟨after, htake, hafter⟩ := exists_handOut message hbuffer hlength
  refine ⟨after, _, htake, ⟨by omega, by omega, ?_⟩, fun i hi => ?_⟩
  · rw [Int.toNat_natCast, hafter, if_neg (by omega), if_pos (by omega)]
  · rw [hafter, if_neg (by omega), if_neg (by omega)]

/-- **A message that was taken ends with a zero, unless there was no byte for it.** Status zero
means that there are a buffer and a length that admits a byte. Then the buffer keeps its size,
nothing changes at or behind the room that was lent, and the length stored lies within that room
with a zero in its place, exactly if the buffer has a byte at all. If it has none, the message is
taken just the same and the length stored is minus one. -/
theorem takeError_terminated_iff {lastError : Option Text} {m : Memory} {o : Outcome}
    (h : takeError lastError m = .ok o) (hstatus : o.status = 0) :
    ∃ buffer length after n, m = ⟨some buffer, some length⟩ ∧ 1 ≤ length ∧
      o = ⟨0, ⟨some after, some n⟩, none⟩ ∧
      after.length = buffer.length ∧
      (∀ i : Nat, min length buffer.length ≤ i → after[i]? = buffer[i]?) ∧
      (Terminated (min length buffer.length) after n ↔ buffer ≠ []) ∧
      (buffer = [] → n = -1) := by
  have htakes : (Call.takeError m).takes := by
    by_contra hnot
    rw [takeError_of_not_takes (Bool.eq_false_iff.2 hnot)] at h
    cases h
    cases hstatus
  obtain ⟨buffer, length, rfl, hlength⟩ := exists_of_takes htakes
  rw [takeError_eq_map lastError buffer hlength] at h
  obtain ⟨message, -, rfl⟩ := map_eq_ok.1 h
  cases buffer with
  | nil =>
    refine ⟨[], length, [], -1, rfl, hlength, by rw [handOut_nil], rfl, fun _ _ => rfl, ?_,
      fun _ => rfl⟩
    simp [Terminated]
  | cons byte bytes =>
    have hbuffer : 1 ≤ (byte :: bytes).length := Nat.succ_pos _
    obtain ⟨after, n, hout, hterminated, hframe⟩ :=
      exists_handOut_terminated message hbuffer hlength
    exact ⟨_, length, after, n, rfl, hlength, by rw [hout], length_handOut hout, hframe,
      iff_of_true hterminated (List.cons_ne_nil _ _), fun hnil => by cases hnil⟩

/-- Five bytes are declared and three are there: two of the message, and the zero. -/
theorem takeError_terminated_iff_truncated :
    let lastError : Option Text := some (errorMessage "é".toText)
    let m : Memory := ⟨some [7, 7, 7], some 5⟩
    ∃ o, takeError lastError m = .ok o ∧ o.status = 0 ∧
      ∃ after n, o = ⟨0, ⟨some after, some n⟩, none⟩ ∧ Terminated 3 after n := by
  intro lastError m
  have htake : takeError lastError m = .ok ⟨0, ⟨some [70, 70, 0], some 2⟩, none⟩ := rfl
  obtain ⟨buffer, length, after, n, hm, -, ho, -, -, hterminated, -⟩ :=
    takeError_terminated_iff htake rfl
  obtain ⟨rfl, rfl⟩ : [7, 7, 7] = buffer ∧ 5 = length := by simpa [m] using hm
  exact ⟨_, htake, rfl, after, n, ho, hterminated.2 (List.cons_ne_nil _ _)⟩

/-- One byte is declared and none is there: the message is gone, and the length says minus one. -/
theorem takeError_unterminated :
    ∃ (lastError : Option Text) (length : Int) (after : Bytes) (n : Int),
      lastError.isSome ∧ 1 ≤ length ∧
      takeError lastError ⟨some [], some length⟩ = .ok ⟨0, ⟨some after, some n⟩, none⟩ ∧
      ¬ Terminated (min length 0) after n := by
  refine ⟨some (errorMessage "boom".toText), 1, [], -1, rfl, by decide, rfl, ?_⟩
  rintro ⟨hn, -, -⟩
  exact absurd hn (by decide)

end AttributeAccess.NativeCall
