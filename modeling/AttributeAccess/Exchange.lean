import AttributeAccess.AccessPolicy.JsonForm
import AttributeAccess.Document.AxisForm
import AttributeAccess.Expression.Parser
import AttributeAccess.Misuse
import AttributeAccess.Registry.Persistence
import AttributeAccess.Settings

/-!
# Exchange of JSON texts

The operations for a host that keeps everything as JSON text: each takes texts, works on what
they mean and gives a text back. Registries are read from either layout and written in the
current one. Where a host may hand over any JSON value, a value of no use is a misuse.
-/

namespace AttributeAccess.Exchange

/-- An operation is refused by the library, what it would write or be set by breaks a rule or
cannot be encoded, or it has no use for a value. -/
inductive Failure where
  | fault (f : Fault)
  | invalid (issues : List Issue)
  | unencodable (name : Text)
  | misuse (m : Misuse)
deriving Repr

def orFault {α : Type} (r : Except Fault α) : Except Failure α := r.mapError .fault

def orInvalid {α : Type} (r : Reading α) : Except Failure α := r.mapError .invalid

def orMisuse {α : Type} (r : Except Misuse α) : Except Failure α := r.mapError .misuse

def Failure.ofWriteFault : Registry.WriteFault → Failure
  | .invalid issues => invalid issues
  | .unencodable name => unencodable name

/-- The JSON text of a registry for the host. -/
def written (r : Registry) : Except Failure Text := r.encode.mapError .ofWriteFault

/-! ## Axes -/

def hybridizedKey : Text := "isHybridized".toText

def hybridizedName : Text := "is_hybridized".toText

/-- The flag of an attribute under either of its names, the first of which wins. -/
def hybridized (fields : Reading.Fields) : Reading Bool :=
  if fields.contains hybridizedKey then
    Reading.required fields hybridizedKey Reading.boolean
  else Reading.optional fields hybridizedName false Reading.boolean

/-- An attribute as the host describes it; fields beyond the name and the flag are let through. -/
def property (v : Json) : Reading (Text × Hint) := do
  let fields ← Reading.fields v
  ((Reading.required fields "name".toText Reading.name).both (hybridized fields)).map
    fun (name, flag) => (name, Hint.ofHybridized flag)

/-- The JSON text of an axis, from a name, attributes and a flag of the host. -/
def axis (name properties hierarchical : Json) : Except Failure Text := do
  let items ← orMisuse properties.elements
  let properties ← orFault ((items.mapM property).mapError .deserialization)
  let (name, hierarchical) ← orInvalid
    (((Reading.name name).under (.key "name".toText)).both
      ((Reading.boolean hierarchical).under (.key "is_hierarchical".toText)))
  .ok (Axis.toJson ⟨name, properties, hierarchical⟩).compact

/-! ## Registries -/

/-- The number of creations that a host asks for, or the default. Other numbers than integers break
a rule of the written registry. -/
def creations (settings : Reading Settings) : Json → Except Failure Int
  | .null => orInvalid (settings.map fun s => (s.defaultMaximum : Int))
  | .number (.integer n) => .ok n
  | .number _ | .bool _ =>
    .error (.invalid [⟨.notInteger, [.key "max_attribute_creations".toText]⟩])
  | v => .error (.misuse (.unordered v.kind))

/-- An empty registry, of the default size if none is given. -/
def newRegistry (settings : Reading Settings) (maximum : Json) : Except Failure Text := do
  let r ← orFault (Registry.new (← creations settings maximum))
  written r

def addAxis (registry axis : Payload) : Except Failure Text := do
  let r ← orFault (Registry.decode registry)
  let a ← orFault (Axis.decode axis)
  let r ← orFault (r.addAxis a)
  written r

def rotateNext (r : Registry) (v : Json) : Except Failure Registry := do
  let t ← orMisuse v.asText
  orFault (do r.rotate (← Attribute.ofText t))

/-- Rotates attributes one after another; each is read when its turn comes. -/
def rotate (attributes : Json) (registry : Payload) : Except Failure Text := do
  let r ← orFault (Registry.decode registry)
  let r ← (← orMisuse attributes.elements).foldlM rotateNext r
  written r

/-! ## Access policies -/

/-- Reads an expression of at most `limit` characters. -/
def parseUpTo (limit : Nat) (t : Text) : Except Fault AccessPolicy :=
  if limit < t.length then .error (.expression (.tooLong t.length limit))
  else AccessPolicy.ofExpression t

/-- The JSON text of the access policy that an expression writes. -/
def parse (settings : Reading Settings) (expression : Json) : Except Failure Text := do
  let s ← orInvalid settings
  let length ← orMisuse expression.length
  if s.expressionLimit < length then
    .error (.fault (.expression (.tooLong length s.expressionLimit)))
  else
    let t ← orMisuse expression.asText
    orFault ((AccessPolicy.ofExpression t).bind AccessPolicy.encode)

end AttributeAccess.Exchange
