import AttributeAccess.Misuse

/-!
# Context of log events

Every event gets the component that it comes from, which is the first part of a dotted logger
name, and the identifier of the call during which it happens.
-/

namespace AttributeAccess.LogContext

abbrev LogEvent := OrderedMap Text Json

def loggerKey : Text := "logger".toText

def componentKey : Text := "component".toText

def callKey : Text := "call_id".toText

/-- A value holds a dot as a character of a text, an item of an array or a name of an object. -/
def holdsDot (v : Json) : Except Misuse Bool :=
  match v.elements with
  | .ok items => .ok (items.any fun
    | .string t => t = [.char '.']
    | _ => false)
  | .error _ => .error (.unsearchable v.kind)

def addComponent (e : LogEvent) : Except Misuse LogEvent := do
  let name := (e.get? loggerKey).getD (.string [])
  if ← holdsDot name then
    match Text.cut? [.char '.'] (← name.asText) with
    | some (component, _) => .ok (e.put componentKey (.string component))
    | none => .ok e
  else .ok e

/-- A void identifier is none. -/
def addCall (call : Json) (e : LogEvent) : LogEvent :=
  if call.isVoid then e else e.put callKey call

def complete (call : Json) (e : LogEvent) : Except Misuse LogEvent :=
  (addComponent e).map (addCall call)

end AttributeAccess.LogContext
