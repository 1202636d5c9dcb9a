/-
Findings of an audit and what is reported of them.
-/
import StyleCheck.Rule

namespace StyleCheck.Audit

/-- how bad a finding is, in ascending order -/
inductive Severity where
  | info
  | hint
  | warning
  | error
  deriving DecidableEq, Repr

namespace Severity

def all : List Severity := [.info, .hint, .warning, .error]

def name : Severity → String
  | info => "info"
  | hint => "hint"
  | warning => "warning"
  | error => "error"

def rank : Severity → Nat
  | info => 0
  | hint => 1
  | warning => 2
  | error => 3

/-- the severity of a name -/
def ofName? (t : Text) : Option Severity := all.find? fun s => s.name.toList = t

/-- a name that is no severity, in lower case -/
structure Unknown where
  name : Text
  deriving DecidableEq, Repr

def Unknown.message (u : Unknown) : String := s!"Configuration error: unknown severity '{String.ofList u.name}'"

/-- the severity of a name in any case -/
def parse (t : Text) : Except Unknown Severity :=
  match ofName? (Text.lower t) with
  | some s => .ok s
  | none => .error ⟨Text.lower t⟩

end Severity

/-- the checks of an audit -/
inductive Check where
  | missingKeyframe
  | unusedKeyframe
  | partialParse
  | duplicateSelector
  | valuelessOverride
  deriving DecidableEq, Repr

namespace Check

/-- every check in reporting order -/
def all : List Check := [.missingKeyframe, .unusedKeyframe, .partialParse, .duplicateSelector, .valuelessOverride]

def id : Check → String
  | missingKeyframe => "missing-keyframe"
  | unusedKeyframe => "unused-keyframe"
  | partialParse => "partial-parse"
  | duplicateSelector => "duplicate-selector"
  | valuelessOverride => "valueless-override"

def title : Check → String
  | missingKeyframe => "Missing Keyframe"
  | unusedKeyframe => "Unused Keyframe"
  | partialParse => "Partial Parse"
  | duplicateSelector => "Duplicate Selector"
  | valuelessOverride => "Valueless Override"

def description : Check → String
  | missingKeyframe => "Detects animations that reference keyframes not defined in the analyzed stylesheets"
  | unusedKeyframe => "Detects @keyframes blocks never referenced by an animation declaration"
  | partialParse => "Detects stylesheets with unbalanced braces or oversized input"
  | duplicateSelector => "Detects selectors defined more than once within one stylesheet"
  | valuelessOverride => "Detects merged rules whose winning definition has an empty body"

def severity : Check → Severity
  | missingKeyframe => .error
  | unusedKeyframe => .info
  | partialParse => .warning
  | duplicateSelector => .hint
  | valuelessOverride => .warning

def ofId? (id : String) : Option Check := all.find? (·.id = id)

end Check

/-- a finding -/
structure Issue where
  check : Check
  message : String
  /-- the source and line of a finding that has one place -/
  location : Option (SourceId × Nat)
  suggestion : Option String
  deriving DecidableEq, Repr

namespace Issue

def severity (i : Issue) : Severity := i.check.severity

def describe (i : Issue) : String :=
  let place := match i.location with
    | some (source, line) => s!" {source}:{line}"
    | none => ""
  s!"{i.severity.name} [{i.check.id}]{place}: {i.message}"

end Issue

/-- what is reported -/
structure Config where
  minSeverity : Severity := .info
  /-- most findings reported; zero stands for no limit -/
  maxIssues : Nat := 0
  /-- ids of the checks to run; none stands for all of them -/
  enabled : List String := []
  disabled : List String := []
  deriving DecidableEq, Repr

namespace Config

/-- whether a check runs -/
def runs (c : Config) (k : Check) : Bool := !c.disabled.contains k.id && (c.enabled.isEmpty || c.enabled.contains k.id)

/-- whether findings of a severity are reported -/
def reports (c : Config) (s : Severity) : Bool := c.minSeverity.rank ≤ s.rank

end Config

end StyleCheck.Audit
