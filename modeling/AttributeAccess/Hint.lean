import AttributeAccess.Text.Quoted

/-!
# Encryption hints

The hint of an attribute says how its key material is treated. Attributes required together take
the join of their hints, in which `hybridized` wins.
-/

namespace AttributeAccess

inductive Hint where
  | classic
  | hybridized
deriving DecidableEq, Repr, Inhabited

namespace Hint

def ofHybridized (b : Bool) : Hint :=
  if b then hybridized else classic

def isHybridized : Hint → Bool
  | classic => false
  | hybridized => true

def join : Hint → Hint → Hint
  | classic, h => h
  | hybridized, _ => hybridized

def joinAll (hs : List Hint) : Hint :=
  hs.foldl join classic

def name : Hint → Text
  | classic => "Classic".toText
  | hybridized => "Hybridized".toText

def ofName? (t : Text) : Option Hint :=
  if t = name classic then some classic
  else if t = name hybridized then some hybridized
  else none

/-- A text that names no hint. -/
structure Unknown where
  name : Text
deriving DecidableEq, Repr

def Unknown.message (u : Unknown) : Text :=
  u.name.quoted ++ " is not a valid EncryptionHint".toText

def ofName (t : Text) : Except Unknown Hint :=
  match ofName? t with
  | some h => .ok h
  | none => .error ⟨t⟩

theorem ofName?_name (h : Hint) : ofName? h.name = some h := by
  cases h <;> rfl

theorem ofName?_eq_some_iff {t : Text} {h : Hint} : ofName? t = some h ↔ t = h.name := by
  refine ⟨fun hname => ?_, fun ht => ht ▸ ofName?_name h⟩
  unfold ofName? at hname
  split at hname
  · next ht => exact Option.some.inj hname ▸ ht
  · split at hname
    · next ht => exact Option.some.inj hname ▸ ht
    · cases hname

theorem isHybridized_join (a b : Hint) :
    (join a b).isHybridized = (a.isHybridized || b.isHybridized) := by
  cases a <;> rfl

end Hint

end AttributeAccess
