/-
Uses of animations against definitions of keyframes.

The names that are used and defined, used only, and defined only are three sorted lists.
-/
import StyleCheck.Identifier.Set

namespace StyleCheck

/-- a name that is only used or only defined -/
inductive BindingFinding where
  | missing (name : Text)
  | unused (name : Text)
  deriving DecidableEq, Repr

def BindingFinding.describe : BindingFinding → String
  | missing name => s!"animation '{String.ofList name}' has no @keyframes"
  | unused name => s!"@keyframes '{String.ofList name}' is never used"

/-- the cross-check of one set -/
structure Bindings where
  /-- used and defined -/
  matched : List Text
  /-- used and not defined -/
  missing : List Text
  /-- defined and not used -/
  unused : List Text
  /-- every use -/
  uses : List Occurrence
  deriving DecidableEq, Repr

/-- names in ascending order of their characters' code points -/
def sortedNames (names : List Text) : List Text := names.mergeSort fun a b => !decide (b < a)

namespace Bindings

/-- the cross-check of the uses and definitions in a set -/
def ofSet (s : IdentifierSet) : Bindings :=
  let used := s.tally .animation
  let defined := s.tally .keyframe
  { matched := sortedNames (used.names.filter defined.contains)
    missing := sortedNames (used.names.filter (!defined.contains ·))
    unused := sortedNames (defined.names.filter (!used.contains ·))
    uses := s.occurrences.filter (·.category = .animation) }

/-- missing names first -/
def findings (b : Bindings) : List BindingFinding := b.missing.map .missing ++ b.unused.map .unused

def isClean (b : Bindings) : Bool := b.missing.isEmpty && b.unused.isEmpty

end Bindings

end StyleCheck
