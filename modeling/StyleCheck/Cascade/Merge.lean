/-
Merging layers of rules in ascending precedence.

The first definition of a selector fixes its place, its kind and its lines in the result; every later one replaces body
and source. A redefinition by another layer than the current winner's is a conflict, one record per selector; within
one layer it only changes the winner.
-/
import StyleCheck.Cascade.Conflict

namespace StyleCheck

/-- the result of a merge -/
structure Merged where
  /-- one per selector, in order of first definition -/
  rules : List Rule
  /-- in the order in which the selectors were met in a second layer -/
  conflicts : List Conflict
  warnings : List ValuelessOverride
  deriving DecidableEq, Repr

namespace Cascade

/-- a selector's current rule and the layer that gave it -/
structure Slot where
  rule : Rule
  layer : Nat
  deriving DecidableEq, Repr

/-- a conflict and the body that its winner displaced -/
structure Contest where
  conflict : Conflict
  displacedBody : Text
  deriving DecidableEq, Repr

/-- the merge so far -/
structure St where
  slots : List Slot
  contests : List Contest
  warnings : List ValuelessOverride
  deriving DecidableEq, Repr

def start : St := ⟨[], [], []⟩

/-- the slot with another body from another source -/
def Slot.replace (s : Slot) (layer : Nat) (r : Rule) : Slot :=
  ⟨{ s.rule with body := r.body, source := r.source }, layer⟩

/-- the first conflict over a selector: `r` of another layer displaces the slot -/
def Contest.first (s : Slot) (r : Rule) : Contest where
  conflict :=
    { selector := r.selector
      losing := s.rule.source
      winning := r.source
      displaced := [s.rule.source]
      identical := Text.trim s.rule.body == Text.trim r.body }
  displacedBody := Text.trim s.rule.body

/-- a further layer displaces the slot; a source that was the last one displaced is not listed again -/
def Contest.override (c : Contest) (s : Slot) (r : Rule) : Contest where
  conflict :=
    { c.conflict with
      winning := r.source
      displaced :=
        if c.conflict.displaced.getLast? = some s.rule.source then c.conflict.displaced
        else c.conflict.displaced ++ [s.rule.source]
      identical := Text.trim s.rule.body == Text.trim r.body }
  displacedBody := Text.trim s.rule.body

/-- the winning layer defines the selector again -/
def Contest.amend (c : Contest) (r : Rule) : Contest :=
  { c with conflict := { c.conflict with winning := r.source, identical := c.displacedBody == Text.trim r.body } }

/-- the contests after `r` of layer `layer` took over the slot `s` -/
def contested (layer : Nat) (s : Slot) (r : Rule) (cs : List Contest) : List Contest :=
  if s.layer = layer then cs.map fun c => if c.conflict.selector = r.selector then c.amend r else c
  else if cs.any (·.conflict.selector = r.selector) then
    cs.map fun c => if c.conflict.selector = r.selector then c.override s r else c
  else cs ++ [Contest.first s r]

/-- one rule of layer `layer` -/
def apply (layer : Nat) (st : St) (r : Rule) : St :=
  match st.slots.find? (·.rule.selector = r.selector) with
  | none => { st with slots := st.slots ++ [⟨{ r with position := st.slots.length }, layer⟩] }
  | some s =>
    { slots := st.slots.map fun t => if t.rule.selector = r.selector then t.replace layer r else t
      contests := contested layer s r st.contests
      warnings := if r.body.isEmpty then st.warnings ++ [⟨r.selector, r.source, s.rule.source⟩] else st.warnings }

/-- one layer with its number -/
def applyLayer (st : St) (layer : List Rule × Nat) : St := layer.1.foldl (apply layer.2) st

def St.result (st : St) : Merged where
  rules := st.slots.map (·.rule)
  conflicts := st.contests.map (·.conflict)
  warnings := st.warnings

/-- merge layers, lowest precedence first -/
def merge (layers : List (List Rule)) : Merged := (layers.zipIdx.foldl applyLayer start).result

end Cascade

namespace Merged

def toCss (m : Merged) : Text := Rule.toCss m.rules

/-- the conflict over a selector -/
def conflict? (m : Merged) (selector : Text) : Option Conflict := m.conflicts.find? (·.selector = selector)

end Merged

end StyleCheck
