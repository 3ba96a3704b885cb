import AttributeAccess.Document.Issue
import AttributeAccess.OrderedMap
import AttributeAccess.Slot
import AttributeAccess.Text.WellFormed

/-!
# Readings of JSON values

A reading gives what a JSON value means, or all the issues that it has, in the order of the
fields and then of the document. Of a field that stands twice the last counts; in a map with free
keys every value is read, and a key keeps its first place and its last value.
-/

namespace AttributeAccess

abbrev Reading (α : Type) := Except (List Issue) α

namespace Reading

variable {α β : Type}

def refuse (kind : IssueKind) : Reading α :=
  .error [⟨kind, []⟩]

/-- Both readings, with the issues of both. -/
def both : Reading α → Reading β → Reading (α × β)
  | .ok a, .ok b => .ok (a, b)
  | .error is, .ok _ => .error is
  | .ok _, .error js => .error js
  | .error is, .error js => .error (is ++ js)

def all : List (Reading α) → Reading (List α)
  | [] => .ok []
  | r :: rs => (r.both (all rs)).map fun (a, as) => a :: as

/-- A reading one step further from the root. -/
def under (step : PathStep) (r : Reading α) : Reading α :=
  r.mapError (·.map (Issue.under step))

/-! ## Scalars -/

def text : Json → Reading Text
  | .string t => .ok t
  | _ => refuse .notText

/-- What keeps a text from being a name: that it is not well-formed, or empty. -/
def badName? (t : Text) : Option IssueKind :=
  if ¬ t.WellFormed then some .notUnicode
  else if t.isEmpty then some .emptyText
  else none

def name : Json → Reading Text
  | .string t =>
    match badName? t with
    | some kind => refuse kind
    | none => .ok t
  | _ => refuse .notText

def boolean : Json → Reading Bool
  | .bool b => .ok b
  | _ => refuse .notBoolean

/-- A number from zero to `maximum`. -/
def within (maximum : Nat) (n : Int) : Reading Nat :=
  if n < 0 then refuse .belowMinimum
  else if (maximum : Int) < n then refuse .aboveMaximum
  else .ok n.toNat

def slot : Json → Reading Nat
  | .number (.integer n) => within slotMaximum n
  | _ => refuse .notInteger

def hint : Json → Reading Hint
  | .string t =>
    match Hint.ofName? t with
    | some h => .ok h
    | none => refuse .notListed
  | _ => refuse .notListed

/-! ## Arrays and maps -/

def indexed (read : Json → Reading α) (n : Nat) : List Json → List (Reading α)
  | [] => []
  | v :: vs => (read v).under (.index n) :: indexed read (n + 1) vs

def listOf (read : Json → Reading α) : Json → Reading (List α)
  | .array vs => all (indexed read 0 vs)
  | _ => refuse .notArray

def entriesOf (read : Json → Reading α) : Json → Reading (OrderedMap Text α)
  | .object ms =>
    (all (ms.map fun (key, v) => ((read v).under (.key key)).map fun a => (key, a))).map
      OrderedMap.ofList
  | _ => refuse .notMap

/-! ## Objects with declared fields -/

/-- The fields of an object, of each the last value. -/
abbrev Fields := OrderedMap Text Json

def required (fields : Fields) (name : Text) (read : Json → Reading α) : Reading α :=
  match fields.get? name with
  | some v => (read v).under (.key name)
  | none => .error [⟨.missing, [.key name]⟩]

def optional (fields : Fields) (name : Text) (default : α) (read : Json → Reading α) :
    Reading α :=
  match fields.get? name with
  | some v => (read v).under (.key name)
  | none => .ok default

/-- The fields of an object, whatever their names. -/
def fields : Json → Reading Fields
  | .object ms => .ok (OrderedMap.ofList ms)
  | _ => refuse .notObject

/-- No field but the declared ones. -/
def only (declared : List Text) (fields : Fields) : Reading Unit :=
  match fields.keys.filter (· ∉ declared) with
  | [] => .ok ()
  | others => .error (others.map fun name => ⟨.unexpected, [.key name]⟩)

/-- An object with the declared fields and no others. -/
def record (declared : List Text) (read : Fields → Reading α) (v : Json) : Reading α := do
  let fields ← fields v
  ((read fields).both (only declared fields)).map Prod.fst

end Reading

end AttributeAccess
