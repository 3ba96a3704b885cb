import AttributeAccess.Exchange

/-!
# Native calls

A native caller hands over a buffer and its length, each of which may be null, and gets a status:
zero for success, the needed size if the buffer is too small, and one for every other failure.
The length is set to what was written or would have been. The message of the last failure is kept
until it is taken. A call breaks down, without a status, if settings do not load or if a text that
it would hand out cannot be encoded.
-/

namespace AttributeAccess.NativeCall

/-- What a caller lends: the buffer and the number of bytes it says the buffer has. -/
structure Memory where
  buffer : Option Bytes
  length : Option Int
deriving DecidableEq, Repr

structure Outcome where
  status : Nat
  memory : Memory
  lastError : Option Text
deriving DecidableEq, Repr

/-- Why a call gives no status. -/
inductive Breakdown where
  | invalid (issues : List Issue)
  | unencodable (t : Text)
deriving DecidableEq, Repr

/-- The bytes of a text that is handed out. -/
def bytesOf (t : Text) : Except Breakdown Bytes :=
  match t.encode? with
  | some bytes => .ok bytes
  | none => .error (.unencodable t)

def nullMessage (name : Text) : Text :=
  "Invalid NULL pointer passed for: ".toText ++ name

def errorMessage (message : Text) : Text :=
  "FFI error: ".toText ++ message

/-- A failure that leaves the memory as it was. -/
def fail (m : Memory) (message : Text) : Outcome :=
  ⟨1, m, some message⟩

def tooSmallMessage (name : Text) (needed : Nat) (allocated : Int) : Text :=
  errorMessage ("The pre-allocated ".toText ++ name ++ " buffer is too small; need ".toText ++
    Digits.ofNat needed ++ " bytes, allocated ".toText ++ Digits.ofInt allocated)

/-- What a length holds once a size is stored in it: 32 bits with a sign. -/
def stored (size : Nat) : Int :=
  (size : Int).bmod 0x100000000

/-- Puts `data` at the start of a buffer that has room for it. -/
def write (name : Text) (data : Bytes) (lastError : Option Text) (m : Memory) : Outcome :=
  match m.buffer, m.length with
  | some buffer, some length =>
    let allocated := min length buffer.length
    if allocated < data.length then
      ⟨data.length, ⟨some buffer, some (stored data.length)⟩,
        some (tooSmallMessage name data.length allocated)⟩
    else ⟨0, ⟨some (data ++ buffer.drop data.length), some (stored data.length)⟩, lastError⟩
  | _, _ => fail m (nullMessage (name ++ " pointer should point to pre-allocated memory".toText))

/-- Writes the JSON text of the access policy that an expression in UTF-8 writes. -/
def parse (settings : Reading Settings) (text : Option Bytes) (lastError : Option Text)
    (m : Memory) : Except Breakdown Outcome :=
  match text with
  | none => .ok (fail m (nullMessage "boolean_expression pointer should not be null".toText))
  | some bytes =>
    match Utf8.decode bytes with
    | .error f =>
      .ok (fail m (errorMessage ("invalid boolean expression: ".toText ++ f.message)))
    | .ok cs => do
      let s ← settings.mapError .invalid
      let t := Text.ofChars cs
      if s.expressionLimit < t.length then
        .ok (fail m (errorMessage ("boolean expression is ".toText ++ Digits.ofNat t.length ++
          " characters long, the limit is ".toText ++ Digits.ofNat s.expressionLimit)))
      else
        match (AccessPolicy.ofExpression t).bind AccessPolicy.encode with
        | .error f => .ok (fail m f.message)
        | .ok json => do .ok (write "access policy".toText (← bytesOf json) lastError m)

/-- Records a failure for the caller; the status and the last error after it. -/
def setError (text : Option Bytes) : Nat × Text :=
  match text with
  | none => (1, nullMessage "error message".toText)
  | some bytes =>
    match Utf8.decode bytes with
    | .error f => (1, errorMessage ("failed to set error message: ".toText ++ f.message))
    | .ok cs => (0, errorMessage (.ofChars cs))

/-- The bytes of the last message, without zeros. -/
def messageBytes (lastError : Option Text) : Except Breakdown Bytes :=
  (bytesOf (lastError.getD [])).map (·.filter (· ≠ 0))

/-- Puts a message into a buffer: cut so that a zero fits behind it, and with zeros up to the end
of what may be written. -/
def handOut (message buffer : Bytes) (length : Int) : Memory :=
  let capacity := min length.toNat buffer.length
  let taken := message.take (capacity - 1)
  let written : Int := min ((capacity : Int) - 1) message.length
  ⟨some (taken ++ List.replicate (capacity - taken.length) 0 ++ buffer.drop capacity),
    some written⟩

/-- Takes the last message into a buffer. -/
def takeError (lastError : Option Text) (m : Memory) : Except Breakdown Outcome :=
  match m.buffer, m.length with
  | some buffer, some length =>
    if length < 1 then .ok ⟨1, m, lastError⟩
    else (messageBytes lastError).map fun message => ⟨0, handOut message buffer length, none⟩
  | _, _ => .ok ⟨1, m, lastError⟩

/-! ## Runs of calls -/

inductive Call where
  | parse (text : Option Bytes) (memory : Memory)
  | setError (text : Option Bytes)
  | takeError (memory : Memory)
deriving DecidableEq, Repr

/-- What a call answers; setting an error involves no memory. -/
structure Answer where
  status : Nat
  memory : Option Memory
deriving DecidableEq, Repr

/-- The answer of a call with an outcome, and the last error after it; `kept` is the last error if
the call breaks down. -/
def answered (kept : Option Text) : Except Breakdown Outcome → Except Breakdown Answer × Option Text
  | .ok o => (.ok ⟨o.status, some o.memory⟩, o.lastError)
  | .error b => (.error b, kept)

/-- One call, and the last error after it. A message is gone before it is encoded. -/
def Call.run (settings : Reading Settings) (lastError : Option Text) :
    Call → Except Breakdown Answer × Option Text
  | parse text m => answered lastError (NativeCall.parse settings text lastError m)
  | setError text =>
    let (status, message) := NativeCall.setError text
    (.ok ⟨status, none⟩, some message)
  | takeError m => answered none (NativeCall.takeError lastError m)

/-- The answers to calls made one after another, until one breaks down. -/
def runAll (settings : Reading Settings) (lastError : Option Text) :
    List Call → Except Breakdown (List Answer)
  | [] => .ok []
  | call :: calls => do
    let (answer, lastError) := call.run settings lastError
    .ok ((← answer) :: (← runAll settings lastError calls))

end AttributeAccess.NativeCall
