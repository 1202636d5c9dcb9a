/-
Reports as JSON values.

Reports keep the order of their fields; the summaries of a merge and of a split have theirs in alphabetical order.
-/
import StyleCheck.Report.Json
import StyleCheck.Audit.Issue
import StyleCheck.Animation.Binding
import StyleCheck.Cascade.Merge
import StyleCheck.Integrity.Comparison
import StyleCheck.Variable.Diff

namespace StyleCheck.Report

def texts (ts : List Text) : Json := .list (ts.map .text)

def source (s : SourceId) : Json := .nat s.number

def categoryTag : Category → String
  | .className => "Class"
  | .id => "Id"
  | .property => "Variable"
  | .keyframe => "Keyframe"
  | .animation => "AnimationRef"

def severityTag : Audit.Severity → String
  | .info => "Info"
  | .hint => "Hint"
  | .warning => "Warning"
  | .error => "Error"

def score : Score → Json
  | .percent tenths => .object [("Percent", .number (Score.decimal tenths))]
  | .noData => .ofString "NoData"

def occurrence (o : Occurrence) : Json := .object [
  ("category", .ofString (categoryTag o.category)),
  ("name", .text o.name),
  ("source", source o.source),
  ("line", .nat o.line),
  ("context", .text o.context)]

def bindings (b : Bindings) : Json := .object [
  ("matched", texts b.matched),
  ("missing", texts b.missing),
  ("unused", texts b.unused),
  ("references", .list (b.uses.map occurrence))]

def preservedName (p : PreservedName) : Json := .object [
  ("name", .text p.name),
  ("reference_count", .nat p.referenceCount),
  ("current_count", .nat p.currentCount)]

def unpairedName (p : UnpairedName) : Json := .object [("name", .text p.name), ("count", .nat p.count)]

def category (r : CategoryReport) : Json := .object [
  ("category", .ofString (categoryTag r.category)),
  ("preserved", .list (r.preserved.map preservedName)),
  ("missing", .list (r.missing.map unpairedName)),
  ("extra", .list (r.extra.map unpairedName)),
  ("score", score r.score)]

def preservation (r : PreservationReport) : Json := .object [
  ("categories", .list (r.categories.map category)),
  ("aggregate", score r.aggregate),
  ("advisory", .bool r.advisory)]

def changedVariable (c : ChangedVariable) : Json := .object [
  ("name", .text c.name),
  ("reference", .text c.reference),
  ("current", .text c.current)]

def scopeDiff (d : ScopeDiff) : Json := .object [
  ("scope", .text d.scope),
  ("missing", texts d.missing),
  ("extra", texts d.extra),
  ("changed", .list (d.changed.map changedVariable)),
  ("preserved", .nat d.preserved),
  ("scope_absent", .bool d.absent)]

def variableDiff (d : VariableDiff) : Json := .object [
  ("scopes", .list (d.scopes.map scopeDiff)),
  ("unmatched_current", texts d.unmatched)]

def auditIssue (i : Audit.Issue) : Json := .object [
  ("severity", .ofString (severityTag i.severity)),
  ("rule_id", .ofString i.check.id),
  ("message", .ofString i.message),
  ("source", .ofOption (fun l => source l.1) i.location),
  ("line", .ofOption (fun l => .nat l.2) i.location),
  ("suggestion", .ofOption .ofString i.suggestion)]

def auditIssues (is : List Audit.Issue) : Json := .list (is.map auditIssue)

def conflict (c : Conflict) : Json := .object [
  ("displaced", .list (c.displaced.map source)),
  ("identical", .bool c.identical),
  ("losing_source", source c.losing),
  ("selector", .text c.selector),
  ("winning_source", source c.winning)]

def warning (w : ValuelessOverride) : Json := .object [
  ("ValuelessOverride", .object [
    ("replaced", source w.replaced),
    ("selector", .text w.selector),
    ("source", source w.source)])]

def merge (m : Merged) : Json := .object [
  ("conflicts", .list (m.conflicts.map conflict)),
  ("rules", .nat m.rules.length),
  ("warnings", .list (m.warnings.map warning))]

/-- what a split wrote: every path with the number of rules in it -/
def split (total : Nat) (written : List (Text × Nat)) : Json := .object [
  ("files", .list (written.map fun (path, rules) => .object [("path", .text path), ("rules", .nat rules)])),
  ("rules", .nat total)]

end StyleCheck.Report
