import AttributeAccess.Json.Basic
import AttributeAccess.Text.WellFormed

/-!
# Written JSON

`compact` writes a value without blanks, `indented` over several lines with two blanks for each
level. Both keep every code point of a text but the double quote, the backslash and the control
characters below U+0020, which are escaped.

`strict` writes a value that can be encoded: a text among the values that is not well-formed is
refused, and in the names of members the surrogates are replaced.
-/

namespace AttributeAccess.Json

def escapeChar (c : CodePoint) : Text :=
  if c = .char '"' then [.char '\\', .char '"']
  else if c = .char '\\' then [.char '\\', .char '\\']
  else if c = .char '\n' then [.char '\\', .char 'n']
  else if c = .char '\r' then [.char '\\', .char 'r']
  else if c = .char '\t' then [.char '\\', .char 't']
  else if c = .char '\x08' then [.char '\\', .char 'b']
  else if c = .char '\x0c' then [.char '\\', .char 'f']
  else if c.toNat < 0x20 then .char '\\' :: .char 'u' :: Hex.padded 4 c.toNat
  else [c]

def quote (t : Text) : Text :=
  .char '"' :: t.flatMap escapeChar ++ [.char '"']

def Number.written : Number → Text
  | integer n => Digits.ofInt n
  | infinite negative => if negative then "-Infinity".toText else "Infinity".toText
  | notANumber => "NaN".toText
  | n => n.display

def boolText (b : Bool) : Text :=
  if b then "true".toText else "false".toText

mutual

def compact : Json → Text
  | null => "null".toText
  | bool b => boolText b
  | number n => n.written
  | string t => quote t
  | array items => [.char '['] ++ Text.joinWith [.char ','] (compactItems items) ++ [.char ']']
  | object members =>
    [.char '\x7b'] ++ Text.joinWith [.char ','] (compactMembers members) ++ [.char '\x7d']

def compactItems : List Json → List Text
  | [] => []
  | v :: vs => compact v :: compactItems vs

def compactMembers : List (Text × Json) → List Text
  | [] => []
  | (name, v) :: ms => (quote name ++ [.char ':'] ++ compact v) :: compactMembers ms

end

/-- The start of a line at a level. -/
def newLine (level : Nat) : Text :=
  .char '\n' :: List.replicate (2 * level) (.char ' ')

/-- Parts on lines of their own, one level deeper than the brackets. -/
def block (openMark closeMark : CodePoint) (level : Nat) (parts : List Text) : Text :=
  if parts.isEmpty then [openMark, closeMark]
  else
    [openMark] ++ newLine (level + 1) ++ Text.joinWith (.char ',' :: newLine (level + 1)) parts ++
      newLine level ++ [closeMark]

mutual

def indentedAt (level : Nat) : Json → Text
  | null => "null".toText
  | bool b => boolText b
  | number n => n.written
  | string t => quote t
  | array items => block (.char '[') (.char ']') level (indentedItems (level + 1) items)
  | object members =>
    block (.char '\x7b') (.char '\x7d') level (indentedMembers (level + 1) members)

def indentedItems (level : Nat) : List Json → List Text
  | [] => []
  | v :: vs => indentedAt level v :: indentedItems level vs

def indentedMembers (level : Nat) : List (Text × Json) → List Text
  | [] => []
  | (name, v) :: ms => (quote name ++ ": ".toText ++ indentedAt level v) :: indentedMembers level ms

end

def indented (v : Json) : Text :=
  indentedAt 0 v

/-! ## Strict writing -/

mutual

/-- The first text among the values that is not well-formed. -/
def unencodable? : Json → Option Text
  | string t => if t.WellFormed then none else some t
  | array items => unencodableItem? items
  | object members => unencodableMember? members
  | _ => none

def unencodableItem? : List Json → Option Text
  | [] => none
  | v :: vs => (unencodable? v).or (unencodableItem? vs)

def unencodableMember? : List (Text × Json) → Option Text
  | [] => none
  | (_, v) :: ms => (unencodable? v).or (unencodableMember? ms)

end

mutual

/-- A value with the surrogates in the names of its members replaced. -/
def withReplacedNames : Json → Json
  | array items => array (itemsWithReplacedNames items)
  | object members => object (membersWithReplacedNames members)
  | v => v

def itemsWithReplacedNames : List Json → List Json
  | [] => []
  | v :: vs => withReplacedNames v :: itemsWithReplacedNames vs

def membersWithReplacedNames : List (Text × Json) → List (Text × Json)
  | [] => []
  | (name, v) :: ms => (name.replaced, withReplacedNames v) :: membersWithReplacedNames ms

end

/-- The compact text of a value, or a text in it that cannot be encoded. -/
def strict (v : Json) : Except Text Text :=
  match v.unencodable? with
  | some t => .error t
  | none => .ok v.withReplacedNames.compact

end AttributeAccess.Json
