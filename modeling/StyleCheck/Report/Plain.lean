/-
Reports as plain text.

Each report is a list of lines. Sources are shown by the names they were given, or by their number where they have
none.
-/
import StyleCheck.Audit.Issue
import StyleCheck.Animation.Binding
import StyleCheck.Cascade.Merge
import StyleCheck.Integrity.Comparison
import StyleCheck.Variable.Diff

namespace StyleCheck.Report.Plain

/-- names of sources -/
abbrev Names := List (SourceId × Text)

def nameOf (names : Names) (s : SourceId) : String :=
  match names.find? (·.1 = s) with
  | some (_, name) => String.ofList name
  | none => s.describe

/-- lines, each with a line feed behind it -/
def unlines (lines : List String) : String := String.join (lines.map (· ++ "\n"))

/-- `s` with blanks behind it -/
def padRight (width : Nat) (s : String) : String := s ++ String.ofList (List.replicate (width - s.length) ' ')

/-- `s` with blanks in front -/
def padLeft (width : Nat) (s : String) : String := String.ofList (List.replicate (width - s.length) ' ') ++ s

def mergeSummary (names : Names) (m : Merged) : List String :=
  let identical := (m.conflicts.filter (·.identical)).length
  s!"{m.rules.length} rules, {m.conflicts.length} conflicts ({identical} identical)" ::
    m.conflicts.map (fun c =>
      let mark := if c.identical then " (same definition)" else ""
      s!"  {String.ofList c.selector}: {nameOf names c.losing} overridden by {nameOf names c.winning}{mark}") ++
    m.warnings.map fun w => s!"  warning: {w.describe}"

def splitSummary (total : Nat) (written : List (Text × Nat)) : List String :=
  written.map (fun (path, rules) => s!"{String.ofList path}: {rules} rule(s)") ++
    [s!"{written.foldl (fun n w => n + w.2) 0} of {total} rule(s) written"]

def scopeDiff (d : ScopeDiff) : List String :=
  let verdict := if d.absent then "scope missing" else d.score.describe
  s!"{String.ofList d.scope}: {verdict}" ::
    d.missing.map (fun n => s!"  - {String.ofList n}") ++
    d.extra.map (fun n => s!"  + {String.ofList n}") ++
    d.changed.map fun c =>
      s!"  ~ {String.ofList c.name}: {String.ofList c.reference} -> {String.ofList c.current}"

def variableDiff (d : VariableDiff) : List String :=
  d.scopes.flatMap scopeDiff ++
    d.unmatched.map (fun key => s!"{String.ofList key}: new scope") ++
    if d.isClean then ["no variable differences"] else []

def bindings (names : Names) (b : Bindings) : List String :=
  let matched := ", ".intercalate (b.matched.map String.ofList)
  let missing := b.uses.filter fun o => b.missing.contains o.name
  s!"matched: {matched}" ::
    missing.map (fun o => s!"{nameOf names o.source}:{o.line}: {(BindingFinding.missing o.name).describe}") ++
    b.unused.map fun name => (BindingFinding.unused name).describe

def category (r : CategoryReport) : List String :=
  let title := padRight 14 r.category.name ++ " " ++ padLeft 6 r.score.describe
  s!"{title}  preserved {r.preserved.length}, missing {r.missing.length}, extra {r.extra.length}" ::
    r.missing.map (fun p => s!"  - {String.ofList p.name} (x{p.count})") ++
    r.changes.map fun p => s!"  ~ {String.ofList p.name} (x{p.referenceCount} -> x{p.currentCount})"

def preservation (r : PreservationReport) : List String :=
  r.categories.flatMap category ++
    s!"aggregate: {r.aggregate.describe} ({r.grade.name})" ::
    if r.advisory then ["note: script identifiers are heuristic"] else []

def auditIssue (names : Names) (i : Audit.Issue) : List String :=
  let place := match i.location with
    | some (source, line) => s!"{nameOf names source}:{line}: "
    | none => ""
  s!"{place}{i.severity.name} [{i.check.id}] {i.message}" :: i.suggestion.toList.map fun s => s!"  help: {s}"

def auditIssues (names : Names) (is : List Audit.Issue) : List String :=
  is.flatMap (auditIssue names) ++ [s!"{is.length} issue(s)"]

end StyleCheck.Report.Plain
