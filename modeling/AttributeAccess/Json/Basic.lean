import AttributeAccess.Decimal
import AttributeAccess.OrderedMap
import AttributeAccess.Text.Quoted

/-!
# JSON values

Objects list their members in the order of the text, repeated names included. A number keeps what
its literal says: an integer, or a decimal with its sign, digits and power of ten. Two readings of
a value stand here: `withoutRepeats`, where the last member of a name counts, and `display`, which
shows a value on one line inside a message.
-/

namespace AttributeAccess

namespace Json

inductive Number where
  | integer (value : Int)
  | decimal (negative : Bool) (digits : Nat) (exponent : Int)
  | infinite (negative : Bool)
  | notANumber
deriving DecidableEq, Repr

end Json

inductive Json where
  | null
  | bool (b : Bool)
  | number (n : Json.Number)
  | string (t : Text)
  | array (items : List Json)
  | object (members : List (Text × Json))
deriving Repr, Inhabited

namespace Json

def ofNat (n : Nat) : Json := number (.integer n)

def ofInt (n : Int) : Json := number (.integer n)

/-- What a value is, whatever it holds. -/
inductive Kind where
  | null
  | boolean
  | integer
  | decimal
  | text
  | array
  | object
deriving DecidableEq, Repr

def kind : Json → Kind
  | null => .null
  | bool _ => .boolean
  | number (.integer _) => .integer
  | number _ => .decimal
  | string _ => .text
  | array _ => .array
  | object _ => .object

/-! ## Repeated names -/

mutual

/-- Every object with one member for each name: in the place of the first, with the last value. -/
def withoutRepeats : Json → Json
  | array items => array (itemsWithoutRepeats items)
  | object members => object (OrderedMap.ofList (membersWithoutRepeats members)).entries
  | v => v

def itemsWithoutRepeats : List Json → List Json
  | [] => []
  | v :: vs => withoutRepeats v :: itemsWithoutRepeats vs

def membersWithoutRepeats : List (Text × Json) → List (Text × Json)
  | [] => []
  | (name, v) :: ms => (name, withoutRepeats v) :: membersWithoutRepeats ms

end

/-! ## Display -/

def Number.display : Number → Text
  | integer n => Digits.ofInt n
  | decimal negative digits exponent =>
    (if negative then [.char '-'] else []) ++ Decimal.rounded digits exponent
  | infinite negative => if negative then "-inf".toText else "inf".toText
  | notANumber => "nan".toText

mutual

def display : Json → Text
  | null => "None".toText
  | bool b => if b then "True".toText else "False".toText
  | number n => n.display
  | string t => t.quoted
  | array items => [.char '['] ++ Text.joinWith ", ".toText (displayItems items) ++ [.char ']']
  | object members =>
    [.char '\x7b'] ++ Text.joinWith ", ".toText (displayMembers members) ++ [.char '\x7d']

def displayItems : List Json → List Text
  | [] => []
  | v :: vs => display v :: displayItems vs

def displayMembers : List (Text × Json) → List Text
  | [] => []
  | (name, v) :: ms => (name.quoted ++ ": ".toText ++ display v) :: displayMembers ms

end

end Json

end AttributeAccess
