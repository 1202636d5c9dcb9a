/-
Rules and their rendering.

A rule is a normal-form selector with the trimmed, verbatim text between its braces. `render` writes one rule with its
body indented line by line, `toCss` a list of them with a blank line in between.
-/
import StyleCheck.Selector.Basic

namespace StyleCheck

/-- number of an input; names of inputs are kept by whoever reads them -/
structure SourceId where
  number : Nat
  deriving DecidableEq, Repr

def SourceId.describe (s : SourceId) : String := s!"#{s.number}"

instance : ToString SourceId := ⟨SourceId.describe⟩

/-- a block of a stylesheet -/
structure Rule where
  /-- in normal form -/
  selector : Text
  /-- trimmed -/
  body : Text
  source : SourceId
  /-- position in the list the rule belongs to -/
  position : Nat
  kind : RuleKind
  /-- line of the selector -/
  line : Nat
  /-- line of the first character of the body -/
  bodyLine : Nat
  deriving DecidableEq, Repr

namespace Rule

/-- a rule from raw texts, on line 1 and classified by the default theme attribute -/
def ofTexts (selector body : Text) (source : SourceId) (position : Nat) : Rule where
  selector := Selector.normalize selector
  body := Text.trim body
  source := source
  position := position
  kind := Selector.kind Selector.defaultThemeAttribute (Selector.normalize selector)
  line := 1
  bodyLine := 1

/-- the name that a keyframes rule declares -/
def keyframesName? (r : Rule) : Option Text :=
  if r.kind = .keyframes then Selector.keyframesName? r.selector else none

/-- the lines of a body without indentation; blank ones are left out -/
def bodyLines (body : Text) : List Text := ((body.splitOn '\n').map Text.trim).filter (!·.isEmpty)

/-- a rule as text, without a line feed at the end -/
def render (r : Rule) : Text :=
  r.selector ++ [' ', '{', '\n'] ++ (bodyLines r.body).flatMap (fun l => "    ".toList ++ l ++ ['\n']) ++ ['}']

/-- rules as stylesheet text, a blank line between two of them -/
def toCss (rules : List Rule) : Text := ['\n'].intercalate (rules.map fun r => r.render ++ ['\n'])

end Rule

end StyleCheck
