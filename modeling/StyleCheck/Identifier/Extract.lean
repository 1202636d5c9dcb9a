/-
Identifiers in stylesheets.

Grouping blocks are parsed again to reach the rules inside them. Keyframes give their name and the custom properties in
them, and nothing else, so that a frame such as `50%` is never a class. Every other rule gives the names in its
selector, its custom properties and the animations it uses.
-/
import StyleCheck.Stylesheet
import StyleCheck.Selector.Names
import StyleCheck.Animation.Name
import StyleCheck.Identifier.Set

namespace StyleCheck

open Text

namespace IdentRun

/-- the machine that cuts a text into runs of identifier characters; texts and lists are last element first -/
structure St where
  line : Nat
  run : Text
  runs : List (Nat × Text)
  deriving DecidableEq, Repr

/-- the runs once the current one has ended; it holds no line feed, so it began on the current line -/
def St.closed (s : St) : List (Nat × Text) := if s.run.isEmpty then s.runs else (s.line, s.run.reverse) :: s.runs

/-- one character -/
def step (s : St) (c : Char) : St :=
  if isIdentChar c then { s with run := c :: s.run }
  else ⟨if c = '\n' then s.line + 1 else s.line, [], s.closed⟩

end IdentRun

/-- the maximal runs of identifier characters, each with its line, where the text begins on line `line` -/
def identRuns (line : Nat) (t : Text) : List (Nat × Text) := (t.foldl IdentRun.step ⟨line, [], []⟩).closed.reverse

namespace Rule

/-- the custom properties in a body, declared or used -/
def properties (r : Rule) : List Occurrence :=
  ((identRuns r.bodyLine r.body).filter fun (_, run) => Declaration.isCustom run).map fun (line, run) =>
    ⟨.property, run, r.source, line, r.selector⟩

/-- the classes and ids in a selector; the prelude of an at-rule has none -/
def selectorNames (r : Rule) : List Occurrence :=
  if r.selector.head? = some '@' then []
  else (Selector.names r.selector).map fun (category, name) => ⟨category, name, r.source, r.line, r.selector⟩

/-- the name that keyframes declare -/
def keyframe (r : Rule) : List Occurrence :=
  r.keyframesName?.toList.map fun name => ⟨.keyframe, name, r.source, r.line, r.selector⟩

/-- the animations that a body uses -/
def animations (extra : List Text) (r : Rule) : List Occurrence :=
  (Declaration.ofBody r.body).filterMap fun d =>
    if Animation.isProperty d.property then
      (Animation.named? extra d.value).map fun name =>
        { category := .animation
          name
          source := r.source
          line := r.bodyLine + newlinesBefore d.offset r.body
          context := d.property ++ [':', ' '] ++ d.value }
    else none

/-- whether the body holds ordinary rules -/
def isGroup (r : Rule) : Bool := r.kind = .media || Selector.isGrouping r.selector

/-- every identifier that a rule holds, in extraction order -/
def identifiers (config : ParseConfig) (extra : List Text) (r : Rule) : List Occurrence :=
  if r.kind = .keyframes then r.keyframe ++ r.properties
  else if r.isGroup then (Stylesheet.parseBody config r).rules.attach.flatMap fun ⟨r', _⟩ => identifiers config extra r'
  else r.selectorNames ++ r.properties ++ r.animations extra
termination_by byteSize r.body
decreasing_by exact Stylesheet.nested_body_lt ‹_›

/-- what a rule holds, without the proof that descending ends -/
theorem identifiers_eq (config : ParseConfig) (extra : List Text) (r : Rule) :
    r.identifiers config extra =
      if r.kind = .keyframes then r.keyframe ++ r.properties
      else if r.isGroup then (Stylesheet.parseBody config r).rules.flatMap (Rule.identifiers config extra)
      else r.selectorNames ++ r.properties ++ r.animations extra := by
  rw [identifiers]
  simp

end Rule

/-- every identifier of a stylesheet; `config` is that of the blocks parsed again -/
def Stylesheet.identifiers (config : ParseConfig) (extra : List Text) (s : Stylesheet) : IdentifierSet :=
  .ofOccurrences .stylesheet (s.rules.flatMap (Rule.identifiers config extra))

end StyleCheck
