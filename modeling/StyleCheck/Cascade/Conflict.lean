/-
What a merge has to tell besides its rules.

A `Conflict` is a selector that more than one layer defines. A `ValuelessOverride` is a rule that was emptied by a
later definition.
-/
import StyleCheck.Rule

namespace StyleCheck

/-- a selector defined by more than one layer -/
structure Conflict where
  selector : Text
  /-- source that defined it first -/
  losing : SourceId
  /-- source whose body is in the result -/
  winning : SourceId
  /-- every source overridden on the way, oldest first -/
  displaced : List SourceId
  /-- the winning body repeats the one it displaced -/
  identical : Bool
  deriving DecidableEq, Repr

def Conflict.describe (c : Conflict) : String :=
  let mark := if c.identical then " (identical)" else ""
  s!"{String.ofList c.selector}: {c.losing} overridden by {c.winning}{mark}"

/-- an empty body in `source` replaced what `replaced` had defined -/
structure ValuelessOverride where
  selector : Text
  source : SourceId
  replaced : SourceId
  deriving DecidableEq, Repr

def ValuelessOverride.describe (w : ValuelessOverride) : String :=
  s!"'{String.ofList w.selector}' from {w.replaced} replaced by an empty body from {w.source}"

end StyleCheck
