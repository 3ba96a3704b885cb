import AttributeAccess.Attribute
import AttributeAccess.Document.Issue
import AttributeAccess.Payload

/-!
# Faults

Why an operation was refused. Each cause has a code, a message and the details that a caller may
want to look at.
-/

namespace AttributeAccess

/-- The expression shown to whoever writes a malformed one. -/
def expressionExample : Text :=
  "(Department::HR || Department::RnD) && Level::level_2".toText

/-- Why a text, a JSON value or a tree is no access policy of the form asked for. -/
inductive ExpressionFault where
  | withoutSeparator (expression : Text)
  | closingMissing (expression inner : Text)
  | closingUnmatched (expression : Text)
  | splitBeyondEnd (expression : Text) (position : Nat)
  | operatorBeyondEnd (expression : Text) (position : Nat)
  | malformedLiteral (expression : Text)
  | parsedTooDeep (length : Nat)
  | encodedTooDeep
  | tooLong (length limit : Nat)
  | formless
  | unreadable (cause : Payload.Fault)
  | unexpectedNode (node : Json)
  | operandCount (tag : Text) (operands : Json)
  | unknownNode (tag : Text)
deriving Repr

namespace ExpressionFault

/-- The message without its heading. -/
def reason : ExpressionFault → Text
  | withoutSeparator e =>
    [.char '\''] ++ e ++ "' does not contain any attribute separator '::'. Example: ".toText ++
      expressionExample
  | closingMissing _ inner => "closing parenthesis missing in ".toText ++ inner
  | closingUnmatched e => "Missing closing parenthesis in boolean expression ".toText ++ e
  | splitBeyondEnd e p =>
    "Cannot split boolean expression ".toText ++ e ++ " at position ".toText ++ Digits.ofNat p ++
      " since ".toText ++ Digits.ofNat p ++ " is greater than the size of ".toText ++ e
  | operatorBeyondEnd e p =>
    "Cannot split boolean expression ".toText ++ e ++ " at position ".toText ++ Digits.ofNat p ++
      " since it is greater than the size of ".toText ++ e
  | malformedLiteral e =>
    [.char '\''] ++ e ++ "' does not respect the format <axis::name>. Example: ".toText ++
      expressionExample
  | parsedTooDeep n =>
    "expression is nested too deeply to be parsed (".toText ++ Digits.ofNat n ++
      " characters)".toText
  | encodedTooDeep => "access policy is nested too deeply to be encoded".toText
  | tooLong n limit =>
    "expression is ".toText ++ Digits.ofNat n ++ " characters long, the limit is ".toText ++
      Digits.ofNat limit
  | formless => "'All' has no boolean expression form".toText
  | unreadable cause => "invalid JSON access policy: ".toText ++ cause.message
  | unexpectedNode node => "unexpected access policy node ".toText ++ node.display
  | operandCount tag operands =>
    [.char '\''] ++ tag ++ "' expects two operands, got ".toText ++ operands.display
  | unknownNode tag => "unknown access policy node '".toText ++ tag ++ [.char '\'']

/-- The text that was being read, if one was. -/
def expression? : ExpressionFault → Option Text
  | withoutSeparator e => some e
  | closingMissing e _ => some e
  | closingUnmatched e => some e
  | splitBeyondEnd e _ => some e
  | operatorBeyondEnd e _ => some e
  | malformedLiteral e => some e
  | _ => none

end ExpressionFault

inductive Fault where
  | attributeNotFound (a : Attribute)
  | missingAttribute (item axis : Option Text)
  | missingAxis
  | unsupportedOperator (operator : Text)
  | capacityOverflow (requested remaining : Int)
  | existingAxis (axis : Text)
  | existingAttribute (a : Attribute)
  | expression (cause : ExpressionFault)
  | malformedAttribute (text : Text)
  | attributeNotText (value : Json)
  | attributeWithoutSlots (a : Attribute)
  | invalidAxis (axis : Text)
  | deserialization (issues : List Issue)
deriving Repr

namespace Fault

def code : Fault → Text
  | attributeNotFound _ => "ATTRIBUTE_NOT_FOUND".toText
  | missingAttribute .. => "MISSING_ATTRIBUTE".toText
  | missingAxis => "MISSING_AXIS".toText
  | unsupportedOperator _ => "UNSUPPORTED_OPERATOR".toText
  | capacityOverflow .. => "CAPACITY_OVERFLOW".toText
  | existingAxis _ | existingAttribute _ => "EXISTING_POLICY".toText
  | expression _ => "INVALID_BOOLEAN_EXPRESSION".toText
  | malformedAttribute _ | attributeNotText _ | attributeWithoutSlots _ =>
    "INVALID_ATTRIBUTE".toText
  | invalidAxis _ => "INVALID_AXIS".toText
  | deserialization _ => "DESERIALIZATION_ERROR".toText

def existing (name : Text) : Text :=
  "policy ".toText ++ name ++ " already exists".toText

/-- An empty item counts as none given. -/
def missing (item axis : Option Text) : Text :=
  let item := match item with
    | some (c :: t) => c :: t
    | _ => "attribute".toText
  item ++ " is missing".toText ++
    match axis with
    | some axis => " in axis ".toText ++ axis
    | none => []

def message : Fault → Text
  | attributeNotFound a => "attribute not found: ".toText ++ a.text
  | missingAttribute item axis => missing item axis
  | missingAxis => "No axis given".toText
  | unsupportedOperator operator => "unsupported operator ".toText ++ operator
  | capacityOverflow .. => "attribute capacity overflow".toText
  | existingAxis axis => existing axis
  | existingAttribute a => existing a.text
  | expression cause => "invalid boolean expression: ".toText ++ cause.reason
  | malformedAttribute t => AttributeAccess.malformedAttribute t
  | attributeNotText v => "invalid attribute: expected a string, got ".toText ++ v.display
  | attributeWithoutSlots a =>
    "invalid attribute: the attribute ".toText ++ a.text ++ " does not have any value!".toText
  | invalidAxis axis => "invalid axis: ".toText ++ axis
  | deserialization _ => "deserialization error".toText

def optionalText : Option Text → Json
  | some t => .string t
  | none => .null

def details : Fault → List (Text × Json)
  | attributeNotFound a => [("attribute".toText, .string a.text)]
  | missingAttribute item axis =>
    [("item".toText, optionalText item), ("axis".toText, optionalText axis)]
  | unsupportedOperator operator => [("operator".toText, .string operator)]
  | capacityOverflow requested remaining =>
    [("requested".toText, .ofInt requested), ("remaining".toText, .ofInt remaining)]
  | existingAxis axis => [("name".toText, .string axis)]
  | existingAttribute a => [("name".toText, .string a.text)]
  | expression cause => [("expression".toText, optionalText cause.expression?)]
  | invalidAxis axis => [("axis".toText, .string axis)]
  | missingAxis | malformedAttribute _ | attributeNotText _ | attributeWithoutSlots _
  | deserialization _ => []

end Fault

/-- The attribute that a text writes. -/
def Attribute.ofText (t : Text) : Except Fault Attribute :=
  match Attribute.ofText? t with
  | some a => .ok a
  | none => .error (.malformedAttribute t)

end AttributeAccess
