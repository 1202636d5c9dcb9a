/-
Checks over an analysis.

`Check.issues` reads the findings of one check off an analysis. `audit` runs the enabled checks in order and stops
behind the check that fills the limit.
-/
import StyleCheck.Analysis
import StyleCheck.Audit.Issue

namespace StyleCheck.Audit

/-- a use without a definition, found at every place of use -/
def missingKeyframes (a : Analysis) : List Issue :=
  (a.bindings.uses.filter fun o => a.bindings.missing.contains o.name).map fun o =>
    { check := .missingKeyframe
      message := s!"Animation '{String.ofList o.name}' has no @keyframes definition"
      location := some (o.source, o.line)
      suggestion := some s!"Define @keyframes {String.ofList o.name} or fix the name" }

/-- a definition without a use, found where it is first defined -/
def unusedKeyframes (a : Analysis) : List Issue :=
  a.bindings.unused.map fun name =>
    { check := .unusedKeyframe
      message := (BindingFinding.unused name).describe
      location := (a.identifiers.occurrencesOf .keyframe name).head?.map fun o => (o.source, o.line)
      suggestion := none }

/-- a stylesheet read only in part -/
def partialParses (a : Analysis) : List Issue :=
  a.faults.map fun (source, fault) =>
    { check := .partialParse
      message := fault.message
      location := match fault with
        | .unterminatedBlock line _ => some (source, line)
        | .inputTooLarge _ _ => some (source, 1)
      suggestion := match fault with
        | .unterminatedBlock _ _ => some "Close the block; rules after it were not analyzed"
        | .inputTooLarge _ _ => none }

/-- a selector defined more than once, found at its last definition -/
def duplicateSelectors (a : Analysis) : List Issue :=
  a.duplicates.map fun d =>
    let lines := ", ".intercalate (d.lines.map toString)
    { check := .duplicateSelector
      message := s!"'{String.ofList d.selector}' defined {d.lines.length} times (lines {lines})"
      location := some (d.source, d.lines.getLast?.getD 1)
      suggestion := some "Fold the declarations into one rule" }

/-- a rule emptied by the merge -/
def valuelessOverrides (a : Analysis) : List Issue :=
  a.mergeWarnings.map fun w =>
    let selector := String.ofList w.selector
    { check := .valuelessOverride
      message := w.describe
      location := none
      suggestion := some s!"Remove the empty '{selector}' rule from {w.source} or give it declarations" }

/-- the findings of one check -/
def Check.issues (a : Analysis) : Check → List Issue
  | missingKeyframe => missingKeyframes a
  | unusedKeyframe => unusedKeyframes a
  | partialParse => partialParses a
  | duplicateSelector => duplicateSelectors a
  | valuelessOverride => valuelessOverrides a

/-- run checks one by one behind the findings so far, until there are as many as the limit allows -/
def runChecks (config : Config) (a : Analysis) (found : List Issue) : List Check → List Issue
  | [] => found
  | k :: ks =>
    if config.runs k then
      let found := found ++ (k.issues a).filter fun i => config.reports i.severity
      if 0 < config.maxIssues ∧ config.maxIssues ≤ found.length then found.take config.maxIssues
      else runChecks config a found ks
    else runChecks config a found ks

/-- the reported findings of all checks -/
def audit (config : Config) (a : Analysis) : List Issue := runChecks config a [] Check.all

end StyleCheck.Audit
