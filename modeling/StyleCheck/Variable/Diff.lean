/-
Custom properties of a reference against those of the present.

Every scope of the reference is compared with the present scope of the same key; one that is absent has lost all its
properties. Values count as equal if they are once blanks around them are dropped.
-/
import StyleCheck.Variable.Map
import StyleCheck.Integrity.Score

namespace StyleCheck

/-- a property whose value differs -/
structure ChangedVariable where
  name : Text
  reference : Text
  current : Text
  deriving DecidableEq, Repr

/-- the comparison of one scope; all lists are in ascending order of names -/
structure ScopeDiff where
  scope : Text
  /-- in the reference only -/
  missing : List Text
  /-- in the present only -/
  extra : List Text
  changed : List ChangedVariable
  /-- number of reference properties that are still there -/
  preserved : Nat
  /-- the present has no such scope -/
  absent : Bool
  deriving DecidableEq, Repr

namespace ScopeDiff

def isClean (d : ScopeDiff) : Bool := d.missing.isEmpty && d.extra.isEmpty && d.changed.isEmpty

/-- share of the reference properties that are still there -/
def score (d : ScopeDiff) : Score := .ofCounts d.preserved (d.preserved + d.missing.length)

/-- the change of one reference property, if it is there with another value -/
def change? (current : Dictionary Text) (e : Text × Text) : Option ChangedVariable :=
  (current.get? e.1).bind fun value => if Text.trim value = Text.trim e.2 then none else some ⟨e.1, e.2, value⟩

/-- a reference scope against the present scope of the same key, if there is one -/
def compute (key : Text) (reference : Dictionary Text) : Option (Dictionary Text) → ScopeDiff
  | none => ⟨key, reference.keys, [], [], 0, true⟩
  | some current =>
    { scope := key
      missing := reference.keys.filter (!current.contains ·)
      extra := current.keys.filter (!reference.contains ·)
      changed := reference.entries.filterMap (change? current)
      preserved := (reference.keys.filter current.contains).length
      absent := false }

end ScopeDiff

/-- the comparison of two maps -/
structure VariableDiff where
  /-- one for each scope of the reference, in ascending order -/
  scopes : List ScopeDiff
  /-- scopes that the reference does not have -/
  unmatched : List Text
  deriving DecidableEq, Repr

namespace VariableDiff

def compute (reference current : VariableMap) : VariableDiff where
  scopes := reference.scopes.entries.map fun (key, d) => .compute key d (current.scope? key)
  unmatched := current.keys.filter (!reference.scopes.contains ·)

def scope? (d : VariableDiff) (key : Text) : Option ScopeDiff := d.scopes.find? (·.scope = key)

/-- every missing property with its scope -/
def allMissing (d : VariableDiff) : List (Text × Text) := d.scopes.flatMap fun s => s.missing.map fun n => (s.scope, n)

/-- every changed property with its scope -/
def allChanged (d : VariableDiff) : List (Text × ChangedVariable) :=
  d.scopes.flatMap fun s => s.changed.map fun c => (s.scope, c)

def isClean (d : VariableDiff) : Bool := d.unmatched.isEmpty && d.scopes.all (·.isClean)

end VariableDiff

end StyleCheck
