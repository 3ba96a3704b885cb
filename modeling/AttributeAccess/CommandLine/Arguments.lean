import AttributeAccess.Text.DecimalDigit

/-!
# Command-line arguments

Arguments are values and switches. A switch may be shortened to any beginning that only it has,
take its value from the same argument (`--output=FILE`, `-oFILE`) or from the next one, and
one-letter switches without a value may be written together. An argument that starts with a dash
is a switch unless it is a negative number or holds a space; after `--`, the separator, everything
is a value.

Arguments are consumed from left to right. Asking for help ends the reading where it stands;
unknown switches and values in excess are only complained of at the end. A value loses the first
`--` among the words that make it up, so a `--` that has no separator beside it is no text.
-/

namespace AttributeAccess.CommandLine

/-- What the switches of the program are for. -/
inductive Purpose where
  | help
  | logLevel
  | followHierarchy
  | output
deriving DecidableEq, Repr

structure Switch where
  name : Text
  purpose : Purpose
  takesValue : Bool
deriving DecidableEq, Repr

/-- A switch comes with what is attached to it in the same argument. -/
inductive Word where
  | value (t : Text)
  | switch (s : Switch) (attached : Option Text)
  | unknown
  | separator
deriving DecidableEq, Repr

/-- Why reading the arguments ended early. -/
inductive Stop where
  | help
  | usage
deriving DecidableEq, Repr

/-! ## Words -/

def doubleDash : Text := [.char '-', .char '-']

def startsWith (start t : Text) : Bool :=
  (start.isPrefixOf? t).isSome

def named? (switches : List Switch) (t : Text) : Option Switch :=
  switches.find? fun s => s.name = t

/-- The argument split at its first equals sign. -/
def splitValue (t : Text) : Text × Option Text :=
  match Text.cut? [.char '='] t with
  | some (name, value) => (name, some value)
  | none => (t, none)

/-- The switches that an argument may stand for, with what is attached to them. -/
def candidates (switches : List Switch) (t : Text) : List (Switch × Option Text) :=
  if startsWith doubleDash t then
    let (name, value) := splitValue t
    (switches.filter fun s => startsWith name s.name).map fun s => (s, value)
  else
    switches.filterMap fun s =>
      if s.name = t.take 2 then some (s, some (t.drop 2))
      else if startsWith t s.name then some (s, none)
      else none

/-- A dash and digits of any script, with at most one point before the last of them. One line
feed may stand at the end. -/
def isNegativeNumber : Text → Bool
  | .char '-' :: t =>
    let t := if t.getLast? = some (.char '\n') then t.dropLast else t
    match Text.cut? [.char '.'] t with
    | none => !t.isEmpty && t.all isDecimalDigit
    | some (whole, fraction) =>
      whole.all isDecimalDigit && !fraction.isEmpty && fraction.all isDecimalDigit
  | _ => false

def word (switches : List Switch) (t : Text) : Except Stop Word :=
  if t.head? ≠ some (.char '-') then .ok (.value t)
  else
    match named? switches t with
    | some s => .ok (.switch s none)
    | none =>
      if t.length = 1 then .ok (.value t)
      else
        match splitValue t with
        | (name, some value) =>
          match named? switches name with
          | some s => .ok (.switch s (some value))
          | none => guess t
        | (_, none) => guess t
where
  guess (t : Text) : Except Stop Word :=
    match candidates switches t with
    | [(s, value)] => .ok (.switch s value)
    | [] => .ok (if isNegativeNumber t || t.contains (.char ' ') then .value t else .unknown)
    | _ => .error .usage

/-- Each argument with the word that it is. -/
def words (switches : List Switch) : List Text → Except Stop (List (Text × Word))
  | [] => .ok []
  | t :: ts =>
    if t = doubleDash then .ok ((t, .separator) :: ts.map fun t => (t, .value t))
    else do
      let w ← word switches t
      .ok ((t, w) :: (← words switches ts))

/-! ## Switches -/

/-- A switch with its value, or with an empty one if it takes none. -/
abbrev Setting := Purpose × Text

/-- What an argument sets, and the switch that still needs a value from the next argument. -/
structure Switched where
  settings : List Setting
  wanting : Option Purpose
deriving DecidableEq, Repr

def Switched.before (setting : Setting) (r : Switched) : Switched :=
  ⟨setting :: r.settings, r.wanting⟩

def Switch.alone (s : Switch) : Switched :=
  if s.takesValue then ⟨[], some s.purpose⟩ else ⟨[(s.purpose, [])], none⟩

/-- The value in an argument; the separator alone is an empty one. -/
def attachedValue (t : Text) : Text :=
  if t = doubleDash then [] else t

/-- A switch with what is attached to it: its value or, behind a one-letter switch without one,
the letters of more switches. -/
def attachedTo (switches : List Switch) : Text → Switch → Option Switched
  | t, s =>
    if s.takesValue then some ⟨[(s.purpose, attachedValue t)], none⟩
    else if startsWith doubleDash s.name then none
    else
      match t with
      | [] => none
      | c :: t =>
        match named? switches [.char '-', c] with
        | none => none
        | some next =>
          let following := if t.isEmpty then some next.alone else attachedTo switches t next
          following.map (.before (s.purpose, []))

def switched (switches : List Switch) (s : Switch) : Option Text → Option Switched
  | some t => attachedTo switches t s
  | none => some s.alone

/-! ## Consuming words -/

/-- What has been read so far. A value is a text or, if it was a lone separator, none. -/
structure Given where
  values : List (Option Text)
  settings : List Setting
  excess : Bool
deriving DecidableEq, Repr

def Given.start : Given := ⟨[], [], false⟩

def Given.exceeding (g : Given) : Given := ⟨g.values, g.settings, true⟩

/-- The same with what an argument sets, unless that is to ask for help. -/
def Given.setting (g : Given) (settings : List Setting) : Except Stop Given :=
  if settings.any fun setting => setting.1 = .help then .error .help
  else .ok ⟨g.values, g.settings ++ settings, g.excess⟩

/-- The text of the last switch of a purpose. -/
def Given.last? (g : Given) (purpose : Purpose) : Option Text :=
  (g.settings.reverse.find? fun setting => setting.1 = purpose).map Prod.snd

/-- Reads a switch, with its value from the words after it if it needs one; what has been read
then, and the words that are left. -/
def Given.takeSwitch (g : Given) (switches : List Switch) (s : Switch)
    (attached : Option Text) (ws : List (Text × Word)) :
    Except Stop (Given × List (Text × Word)) :=
  match switched switches s attached with
  | none => .error .usage
  | some r =>
    match r.wanting, ws with
    | none, _ => (g.setting r.settings).map (·, ws)
    | some purpose, (_, .value t) :: ws =>
      (g.setting (r.settings ++ [(purpose, t)])).map (·, ws)
    | some _, _ => .error .usage

/-- Whether the words start with a value. -/
def valueFollows : List (Text × Word) → Bool
  | (_, .value _) :: _ => true
  | _ => false

/-- What stands before a word: a value with the separators that belong to it, a separator that
belongs to the value after it, or anything else. -/
inductive Before where
  | value
  | separator
  | other
deriving DecidableEq, Repr

/-- The text of a value. -/
def Before.valueText (b : Before) (t : Text) : Option Text :=
  if t = doubleDash ∧ b ≠ .separator then none else some t

/-- Reads the arguments of a command with `count` values. A separator belongs to the value before
it or after it. -/
def consume (switches : List Switch) (count : Nat) :
    (fuel : Nat) → Before → Given → List (Text × Word) → Except Stop Given
  | 0, _, g, _ => .ok g
  | _ + 1, _, g, [] => .ok g
  | fuel + 1, before, g, (_, w) :: ws =>
    match w with
    | .value t =>
      if g.values.length < count then
        consume switches count fuel .value
          ⟨g.values ++ [before.valueText t], g.settings, g.excess⟩ ws
      else consume switches count fuel .other g.exceeding ws
    | .separator =>
      if before = .value then consume switches count fuel .value g ws
      else if g.values.length < count ∧ valueFollows ws then
        consume switches count fuel .separator g ws
      else consume switches count fuel .other g.exceeding ws
    | .unknown => consume switches count fuel .other g.exceeding ws
    | .switch s attached => do
      let (g, ws) ← g.takeSwitch switches s attached ws
      consume switches count fuel .other g ws

/-- The arguments of a command, which must be as many values as it needs and nothing else. -/
def readCommand (switches : List Switch) (count : Nat) (ts : List Text) : Except Stop Given := do
  let ws ← words switches ts
  let g ← consume switches count ws.length .other Given.start ws
  if g.values.length = count then .ok g else .error .usage

/-- The switches in front of a command, the name of the command and the arguments after it. -/
def readHead (switches : List Switch) :
    (fuel : Nat) → Given → List (Text × Word) → Except Stop (Given × Text × List Text)
  | 0, _, _ => .error .usage
  | _ + 1, _, [] => .error .usage
  | fuel + 1, g, (_, w) :: ws =>
    match w with
    | .value t => .ok (g, t, ws.map Prod.fst)
    | .separator => .error .usage
    | .unknown => readHead switches fuel g.exceeding ws
    | .switch s attached => do
      let (g, ws) ← g.takeSwitch switches s attached ws
      readHead switches fuel g ws

/-! ## The commands of the program -/

/-- The expression of `combinations` is missing if a lone separator stands in its place. -/
inductive Command where
  | parse (expression : Text)
  | combinations (policy : Text) (expression : Option Text) (followHierarchy : Bool)
  | migrate (policy : Text) (output : Option Text)
deriving DecidableEq, Repr

structure Invocation where
  logLevel : Option Text
  command : Command
deriving DecidableEq, Repr

def helpSwitches : List Switch :=
  [⟨"-h".toText, .help, false⟩, ⟨"--help".toText, .help, false⟩]

def generalSwitches : List Switch :=
  helpSwitches ++ [⟨"--log-level".toText, .logLevel, true⟩]

def combinationsSwitches : List Switch :=
  helpSwitches ++ [⟨"--follow-hierarchy".toText, .followHierarchy, false⟩]

def migrateSwitches : List Switch :=
  helpSwitches ++ [⟨"-o".toText, .output, true⟩, ⟨"--output".toText, .output, true⟩]

/-- A command by its name and its arguments, and whether some of these were in excess. -/
def command (name : Text) (ts : List Text) : Except Stop (Command × Bool) :=
  if name = "parse".toText then do
    let g ← readCommand helpSwitches 1 ts
    match g.values with
    | [some expression] => .ok (.parse expression, g.excess)
    | _ => .error .usage
  else if name = "combinations".toText then do
    let g ← readCommand combinationsSwitches 2 ts
    match g.values with
    | [some policy, expression] =>
      .ok (.combinations policy expression (g.last? .followHierarchy).isSome, g.excess)
    | _ => .error .usage
  else if name = "migrate".toText then do
    let g ← readCommand migrateSwitches 1 ts
    match g.values with
    | [some policy] => .ok (.migrate policy (g.last? .output), g.excess)
    | _ => .error .usage
  else .error .usage

def invocation (ts : List Text) : Except Stop Invocation := do
  let ws ← words generalSwitches ts
  let (g, name, rest) ← readHead generalSwitches (ws.length + 1) Given.start ws
  let (c, excess) ← command name rest
  if g.excess || excess then .error .usage else .ok ⟨g.last? .logLevel, c⟩

end AttributeAccess.CommandLine
