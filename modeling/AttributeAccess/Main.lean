import AttributeAccess.CommandLine.Run

/-!
# The command line

Gathers what a run needs from the world, lets `Invocation.run` decide and carries its outcome out.
-/

namespace AttributeAccess.CommandLine

def usage : String :=
  "usage: abe-policy [--log-level LEVEL] parse EXPRESSION\n" ++
  "       abe-policy [--log-level LEVEL] combinations [--follow-hierarchy] POLICY EXPRESSION\n" ++
  "       abe-policy [--log-level LEVEL] migrate [-o FILE] POLICY"

/-- A text as a string. Arguments, variables and files hold characters only, and so does all that
is made of them. -/
def string (t : Text) : String :=
  String.ofList (t.filterMap CodePoint.char?)

/-- Codes of the system come with either sign. -/
def FileCause.ofError : IO.Error → FileCause
  | .permissionDenied .. => .denied
  | .inappropriateType _ code _ =>
    if code = 20 ∨ code = -20 then .notDirectory else .isDirectory
  | .invalidArgument _ code _ => if code = 36 ∨ code = -36 then .nameTooLong else .notFound
  | _ => .notFound

/-- The text of a file, or what keeps it from being read. -/
def readText (path : Text) : IO (Except FileFault Text) := do
  match ← (IO.FS.readBinFile (string (normalPath path))).toBaseIO with
  | .error e => return .error ⟨FileCause.ofError e, normalPath path⟩
  | .ok bytes =>
    match Utf8.decode bytes.toList with
    | .ok cs => return .ok (.ofChars cs)
    | .error f => throw (IO.userError (string f.message))

def writeText (path content : Text) : IO (Except FileFault Unit) := do
  match ← (IO.FS.writeFile (string (normalPath path)) (string content)).toBaseIO with
  | .error e => return .error ⟨FileCause.ofError e, normalPath path⟩
  | .ok () => return .ok ()

/-- The variables of the environment with the given names. -/
def environment (names : List Text) : IO Variables :=
  names.filterMapM fun name => do
    return (← IO.getEnv (string name)).map fun t => (name, t.toText)

/-- The names that the settings may come from, in lower and upper case. -/
def settingNames : List Text :=
  Settings.fields.flatMap fun field =>
    let name := Settings.nameHead ++ field
    [name, (string name).toUpper.toText]

def Invocation.settings : IO (Reading Settings) := do
  let file ← readText settingsFile
  let text := file.toOption.getD []
  let known ← environment (settingNames ++ VariableFile.referredNames text)
  return Settings.ofVariables known (VariableFile.load known text)

/-- Prints an outcome and writes its file. -/
def Outcome.carryOut (o : Outcome) : IO UInt32 := do
  let o ← match o.file with
    | none => pure o
    | some (path, content) =>
      match ← writeText path content with
      | .ok () => pure o
      | .error f => pure (.failing f.message)
  IO.print (string o.out)
  IO.eprint (string o.err)
  return UInt32.ofNat o.exit

def Invocation.perform (i : Invocation) : IO UInt32 := do
  let settings ← Invocation.settings
  let content ← match i.command.input? with
    | some path => readText path
    | none => pure (.ok [])
  match i.run settings content with
  | .ok o => o.carryOut
  | .error _ =>
    IO.eprintln "error: the run broke down"
    return 1

end AttributeAccess.CommandLine

def main (args : List String) : IO UInt32 := do
  match AttributeAccess.CommandLine.invocation (args.map String.toText) with
  | .ok i => i.perform
  | .error .help =>
    IO.println AttributeAccess.CommandLine.usage
    return 0
  | .error .usage =>
    IO.eprintln AttributeAccess.CommandLine.usage
    return 2
