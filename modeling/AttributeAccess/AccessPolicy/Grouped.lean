import AttributeAccess.AccessPolicy.Basic
import AttributeAccess.Fault
import AttributeAccess.OrderedMap

/-!
# Access policies from axes

Names given for each axis make a policy that requires one of the names of every axis.
-/

namespace AttributeAccess.AccessPolicy

/-- Any of the names on one axis. -/
def anyOf (axis first : Text) (others : List Text) : AccessPolicy :=
  others.foldl (fun t name => or t (attr ⟨axis, name⟩)) (attr ⟨axis, first⟩)

def groupPolicy (group : Text × List Text) : Except Fault AccessPolicy :=
  match group.2 with
  | [] => .error (.missingAttribute none (some group.1))
  | first :: others => .ok (anyOf group.1 first others)

def ofAxes (groups : OrderedMap Text (List Text)) : Except Fault AccessPolicy := do
  match ← groups.entries.mapM groupPolicy with
  | [] => .error .missingAxis
  | first :: others => .ok (others.foldl and first)

end AttributeAccess.AccessPolicy
