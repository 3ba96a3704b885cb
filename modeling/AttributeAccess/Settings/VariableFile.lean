import AttributeAccess.OrderedMap
import AttributeAccess.Text.Blank

/-!
# Files of variables

A file binds names to values with lines `NAME=value`. A value stands in quotes, inside which a
backslash escapes and lines may end, or it goes up to a comment or the end of its line. The word
`export` in front of a name is passed over, and so is a line that breaks the grammar, from where
it does. A name alone is bound to nothing.

`bindings` reads the lines, `resolve` puts values in the place of the references `${NAME}` and
`${NAME:-default}`, and `load` does both.
-/

namespace AttributeAccess

/-- Names with their texts, in order. -/
abbrev Variables := List (Text × Text)

/-- The text of the last variable with a name. -/
def Variables.get? (name : Text) (vs : Variables) : Option Text :=
  (vs.reverse.find? fun v => v.1 = name).map Prod.snd

namespace VariableFile

structure Binding where
  name : Text
  value : Option Text
deriving DecidableEq, Repr

/-- A step gives the rest of the text, with what it has read, or the rest where it broke off. -/
abbrev Step := Except Text

/-! ## Lines -/

def isInlineBlank (c : CodePoint) : Bool :=
  isBlank c && c != .char '\n'

def skipBlanks (t : Text) : Text :=
  t.dropWhile isInlineBlank

/-- The rest of the line at the front. -/
def line (t : Text) : Text :=
  t.takeWhile (· ≠ .char '\n')

/-- What follows the line at the front. -/
def skipLine (t : Text) : Text :=
  (t.dropWhile (· ≠ .char '\n')).drop 1

def skipExport (t : Text) : Text :=
  match "export".toText.isPrefixOf? t with
  | some (c :: after) => if isInlineBlank c then skipBlanks after else t
  | _ => t

/-- Nothing but blanks and a comment up to the end of the line. -/
def lineEnd (t : Text) : Step Text :=
  match skipBlanks t with
  | [] => .ok []
  | c :: after => if c = .char '#' ∨ c = .char '\n' then .ok (skipLine (c :: after)) else .error t

/-! ## Names and values -/

def inName (c : CodePoint) : Bool :=
  c != .char '=' && c != .char '#' && !isBlank c

/-- A name, which may stand in single quotes; a comment has none. -/
def name (t : Text) : Step (Option Text × Text) :=
  match t with
  | .char '#' :: _ => .ok (none, t)
  | .char '\'' :: after =>
    match Text.cut? [.char '\''] after with
    | some (c :: cs, after) => .ok (some (c :: cs), after)
    | _ => .error t
  | _ =>
    match t.takeWhile inName with
    | [] => .error t
    | cs => .ok (some cs, t.dropWhile inName)

/-- The escapes that double quotes add to those of both kinds of quotes. -/
def controlEscapes : List (CodePoint × CodePoint) :=
  [(.char 'a', .char '\x07'), (.char 'b', .char '\x08'), (.char 'f', .char '\x0c'),
    (.char 'n', .char '\n'), (.char 'r', .char '\r'), (.char 't', .char '\t'),
    (.char 'v', .char '\x0b'), (.char '"', .char '"')]

/-- What a backslash and a character stand for inside quotes. -/
def escaped (quote c : CodePoint) : Text :=
  if c = .char '\\' ∨ c = .char '\'' then [c]
  else
    match controlEscapes.find? fun e => quote = .char '"' && e.1 = c with
    | some (_, meaning) => [meaning]
    | none => [.char '\\', c]

/-- The text up to the closing quote, and what follows it. -/
def quoted? (quote : CodePoint) : Text → Option (Text × Text)
  | [] => none
  | .char '\\' :: c :: t =>
    (quoted? quote t).map fun (body, after) => (escaped quote c ++ body, after)
  | c :: t =>
    if c = quote then some ([], t)
    else (quoted? quote t).map fun (body, after) => (c :: body, after)

/-- What stands in front of a comment, which is a hash after a blank. -/
def withoutComment : Text → Text
  | [] => []
  | c :: t => if isBlank c && t.head? = some (.char '#') then [] else c :: withoutComment t

def value (t : Text) : Step (Text × Text) :=
  match t with
  | .char '\'' :: after => (quoted? (.char '\'') after).elim (.error t) .ok
  | .char '"' :: after => (quoted? (.char '"') after).elim (.error t) .ok
  | _ => .ok ((withoutComment (line t)).trimEnd, t.dropWhile (· ≠ .char '\n'))

/-! ## Bindings -/

def valueAfterName (t : Text) : Step (Option Text × Text) :=
  match skipBlanks t with
  | .char '=' :: after => (value (skipBlanks after)).map fun (v, after) => (some v, after)
  | after => .ok (none, after)

/-- The binding at the front; a comment is none. -/
def binding (t : Text) : Step (Option Binding × Text) := do
  let (name, t) ← name (skipExport t)
  let (value, t) ← valueAfterName t
  .ok (name.map (⟨·, value⟩), ← lineEnd t)

/-- The bindings of a text; each takes at least one character of it. -/
def bindingsWithin : (fuel : Nat) → Text → List Binding
  | 0, _ => []
  | fuel + 1, t =>
    match t.dropWhile isBlank with
    | [] => []
    | t =>
      match binding t with
      | .ok (b, after) => b.toList ++ bindingsWithin fuel after
      | .error after => bindingsWithin fuel (skipLine after)

def bindings (t : Text) : List Binding :=
  bindingsWithin t.length t

/-! ## References -/

structure Reference where
  name : Text
  default : Text
deriving DecidableEq, Repr

inductive Piece where
  | character (c : CodePoint)
  | reference (r : Reference)
deriving DecidableEq, Repr

def closingBrace : CodePoint := .char '\x7d'

/-- The reference whose opening brace stands in front of the text, and what follows it. -/
def reference? (t : Text) : Option (Reference × Text) :=
  let inName (c : CodePoint) : Bool := c != closingBrace && c != .char ':'
  match t.dropWhile inName with
  | .char ':' :: .char '-' :: after =>
    (Text.cut? [closingBrace] after).map fun (default, after) =>
      (⟨t.takeWhile inName, default⟩, after)
  | c :: after => if c = closingBrace then some (⟨t.takeWhile inName, []⟩, after) else none
  | [] => none

def piecesWithin : (fuel : Nat) → Text → List Piece
  | 0, _ => []
  | _ + 1, [] => []
  | fuel + 1, c :: t =>
    let found : Option (Reference × Text) := match c, t with
      | .char '$', .char '\x7b' :: t => reference? t
      | _, _ => none
    match found with
    | some (r, after) => .reference r :: piecesWithin fuel after
    | none => .character c :: piecesWithin fuel t

/-- The references in a text and the characters around them. -/
def pieces (t : Text) : List Piece :=
  piecesWithin t.length t

/-- The names that a text refers to. -/
def referredNames (t : Text) : List Text :=
  (pieces t).filterMap fun
    | .reference r => some r.name
    | .character _ => none

/-- A text with what its references stand for. -/
def substituted (known : Text → Option Text) (t : Text) : Text :=
  (pieces t).flatMap fun
    | .reference r => (known r.name).getD r.default
    | .character c => [c]

/-- What a name stands for: what it is bound to, even nothing, else its text in the
environment. -/
def meaning? (environment : Variables) (bound : OrderedMap Text (Option Text)) (name : Text) :
    Option Text :=
  match bound.get? name with
  | some v => some (v.getD [])
  | none => environment.get? name

/-- Binds names one after another; a value may refer to what is bound before it. -/
def resolve (environment : Variables) (bs : List Binding) : OrderedMap Text (Option Text) :=
  bs.foldl (fun bound b =>
    bound.put b.name (b.value.map (substituted (meaning? environment bound)))) .empty

/-! ## Variables -/

def byteOrderMark : CodePoint := .char '\ufeff'

def withoutMark (t : Text) : Text :=
  if t.head? = some byteOrderMark then t.tail else t

/-- The variables that a file sets, with names in lower case. Of the names that differ in case
alone the last one bound counts, and one bound to nothing sets none. -/
def load (environment : Variables) (t : Text) : Variables :=
  let bound := resolve environment (bindings (withoutMark t).withLineFeeds)
  let lowered :=
    OrderedMap.ofList (bound.entries.map fun (name, v) => (name.map CodePoint.toLower, v))
  lowered.entries.filterMap fun (name, v) => v.map (name, ·)

end VariableFile

end AttributeAccess
