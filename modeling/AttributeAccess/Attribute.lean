import AttributeAccess.Text.Basic

/-!
# Attributes

An attribute is a name on an axis. Its text form joins the two by `::`; a text is the form of an
attribute when splitting it at `::` leaves exactly two parts and neither is empty.
-/

namespace AttributeAccess

structure Attribute where
  axis : Text
  name : Text
deriving DecidableEq, Repr, Inhabited

namespace Attribute

def separator : Text := [.char ':', .char ':']

def text (a : Attribute) : Text :=
  a.axis ++ separator ++ a.name

def ofText? (t : Text) : Option Attribute :=
  match Text.splitOn separator t with
  | [axis, name] => if axis.isEmpty || name.isEmpty then none else some ⟨axis, name⟩
  | _ => none

/-- By axis, then by name. -/
def notAfter (a b : Attribute) : Bool :=
  if a.axis = b.axis then Text.notAfter a.name b.name else Text.notAfter a.axis b.axis

def sorted (as : List Attribute) : List Attribute :=
  as.mergeSort notAfter

end Attribute

end AttributeAccess
