import AttributeAccess.Document.Reading
import AttributeAccess.Settings.IntegerText
import AttributeAccess.Settings.VariableFile

/-!
# Settings

The settings come from variables whose names start with `ABE_POLICY_`, in any case. A variable of
the environment wins over one of a file, and a later one over an earlier one. What no variable
sets has a default.
-/

namespace AttributeAccess

structure Settings where
  environment : Text
  logLevel : Text
  defaultMaximum : Nat
  expressionLimit : Nat
deriving DecidableEq, Repr

namespace Settings

def default : Settings :=
  ⟨"local".toText, "info".toText, slotMaximum, 8192⟩

/-! ## Values -/

def integer (t : Text) : Reading Int :=
  if ¬ t.WellFormed then Reading.refuse .notUnicode
  else
    match IntegerText.read t with
    | .ok n => .ok n
    | .error .malformed => Reading.refuse .notIntegerText
    | .error .tooLong => Reading.refuse .integerTooLong

def maximum (t : Text) : Reading Nat :=
  (integer t).bind (Reading.within slotMaximum)

def positive (t : Text) : Reading Nat := do
  let n ← integer t
  if 0 < n then .ok n.toNat else Reading.refuse .notPositive

/-! ## Variables -/

def nameHead : Text := "abe_policy_".toText

def environmentField : Text := "env".toText

def logLevelField : Text := "log_level".toText

def maximumField : Text := "default_max_attribute_creations".toText

def limitField : Text := "max_expression_length".toText

def fields : List Text := [environmentField, logLevelField, maximumField, limitField]

/-- The text of the last variable that sets a field. -/
def lookup? (field : Text) (vs : Variables) : Option Text :=
  (vs.reverse.find? fun v => v.1.map CodePoint.toLower = nameHead ++ field).map Prod.snd

/-- A field from its variable, if there is one. -/
def fieldOr {α : Type} (field : Text) (default : α) (read : Text → Reading α)
    (environment file : Variables) : Reading α :=
  match (lookup? field environment).or (lookup? field file) with
  | some t => (read t).under (.key field)
  | none => .ok default

/-- The settings that the variables of the environment and of a file make. -/
def ofVariables (environment file : Variables) : Reading Settings :=
  let given {α : Type} (field : Text) (default : α) (read : Text → Reading α) : Reading α :=
    fieldOr field default read environment file
  ((given environmentField default.environment .ok).both
    ((given logLevelField default.logLevel .ok).both
      ((given maximumField default.defaultMaximum maximum).both
        (given limitField default.expressionLimit positive)))).map
    fun (env, level, maximum, limit) => ⟨env, level, maximum, limit⟩

end Settings

end AttributeAccess
