import AttributeAccess.AccessPolicy.Combinations
import AttributeAccess.CommandLine.Arguments
import AttributeAccess.CommandLine.Directory
import AttributeAccess.Exchange

/-!
# Running a command

A command reads at most one file and writes at most one. What it does in between is a function:
from the settings and the outcome of reading to what is printed and what is to be written. A run
that breaks down has no outcome.
-/

namespace AttributeAccess.CommandLine

/-- The file that a command reads. -/
def Command.input? : Command → Option Text
  | parse _ => none
  | combinations policy .. => some policy
  | migrate policy _ => some policy

/-! ## Outcomes -/

structure Outcome where
  exit : Nat
  out : Text
  err : Text
  /-- A file to be written, with its content. -/
  file : Option (Text × Text)
deriving DecidableEq, Repr

def Outcome.printing (t : Text) : Outcome :=
  ⟨0, t ++ [.char '\n'], [], none⟩

def Outcome.failing (message : Text) : Outcome :=
  ⟨1, [], "error: ".toText ++ message ++ [.char '\n'], none⟩

/-- Why a run has no outcome. -/
inductive Breakdown where
  | invalid (issues : List Issue)
  | unencodable (name : Text)
  | expressionMissing
  | unencodablePath
  | zeroInPath
deriving DecidableEq, Repr

def Breakdown.ofWriteFault : Registry.WriteFault → Breakdown
  | .invalid issues => invalid issues
  | .unencodable name => unencodable name

/-- A command is refused with a message, or the run breaks down. -/
inductive Failure where
  | fault (f : Fault)
  | breakdown (b : Breakdown)
deriving Repr

def orFault {α : Type} (r : Except Fault α) : Except Failure α :=
  r.mapError .fault

def orInvalid {α : Type} (r : Reading α) : Except Failure α :=
  r.mapError fun issues => .breakdown (.invalid issues)

/-! ## Commands -/

def readExpression (settings : Reading Settings) (expression : Option Text) :
    Except Failure AccessPolicy := do
  let s ← orInvalid settings
  match expression with
  | some t => orFault (Exchange.parseUpTo s.expressionLimit t)
  | none => .error (.breakdown .expressionMissing)

def readRegistry (content : Text) : Except Failure Registry :=
  orFault (Registry.decode (.text content.withLineFeeds))

def combinationToJson (r : Registry) (c : Combination) : Except Fault Json := do
  let slots ← r.currentSlots c
  let hint ← r.joinedHint c
  .ok (.object [("attributes".toText, .array (c.map fun a => .string a.text)),
    ("values".toText, .array (slots.map .ofNat)),
    ("encryption_hint".toText, .string hint.name)])

/-- What a command does with the content of its file. -/
def Command.perform (settings : Reading Settings) (content : Text) :
    Command → Except Failure Outcome
  | parse expression => do
    let p ← readExpression settings (some expression)
    .ok (.printing (← orFault p.encode))
  | combinations _ expression follow => do
    let r ← readRegistry content
    let p ← readExpression settings expression
    let cs ← orFault (p.combinations r.axes follow)
    let vs ← orFault (cs.mapM (combinationToJson r))
    .ok (.printing (Json.array vs).indented)
  | migrate _ output => do
    let r ← readRegistry content
    let t ← r.encode.mapError fun f => .breakdown (.ofWriteFault f)
    match output with
    | some (c :: path) => .ok ⟨0, [], [], some (c :: path, t)⟩
    | _ => .ok (.printing t)

/-- Whether the settings are asked for the log level. -/
def Invocation.asksLevel (i : Invocation) : Bool :=
  match i.logLevel with
  | some (_ :: _) => false
  | _ => true

/-- A path has bytes, and none of them is zero. -/
def checkPath (path : Option Text) : Except Breakdown Unit :=
  if !isEncodable (path.getD []) then .error .unencodablePath
  else if (path.getD []).contains (.char '\x00') then .error .zeroInPath
  else .ok ()

/-- Runs a command; settings that do not load where they are needed break it down. -/
def Invocation.run (i : Invocation) (settings : Reading Settings)
    (content : Except FileFault Text) : Except Breakdown Outcome := do
  if i.asksLevel then
    let _ ← settings.mapError Breakdown.invalid
  checkPath i.command.input?
  match content with
  | .error f => .ok (.failing f.message)
  | .ok content =>
    match i.command.perform settings content with
    | .error (.fault f) => .ok (.failing f.message)
    | .error (.breakdown b) => .error b
    | .ok o =>
      checkPath (o.file.map Prod.fst)
      .ok o

/-! ## Runs in a directory -/

/-- The file of variables that a directory may hold. -/
def settingsFile : Text := ".env".toText

/-- The settings that the environment and the files of a directory make. -/
def settingsIn (d : Directory) (environment : Variables) : Reading Settings :=
  Settings.ofVariables environment
    ((d.read settingsFile).toOption.elim [] (VariableFile.load environment))

/-- What a command reads in a directory. -/
def Command.inputIn (d : Directory) (c : Command) : Except FileFault Text :=
  match c.input? with
  | some path => d.read path
  | none => .ok []

/-- Writes the file of an outcome; a fault in doing so is the outcome instead. -/
def Outcome.writeIn (d : Directory) (o : Outcome) : Outcome × Directory :=
  match o.file with
  | none => (o, d)
  | some (path, content) =>
    match d.write path content with
    | .ok d => (o, d)
    | .error f => (.failing f.message, d)

/-- A whole run in a directory, and the directory after it. -/
def Invocation.runIn (i : Invocation) (d : Directory) (environment : Variables) :
    Except Breakdown (Outcome × Directory) :=
  (i.run (settingsIn d environment) (i.command.inputIn d)).map (·.writeIn d)

end AttributeAccess.CommandLine
