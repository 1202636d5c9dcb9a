/-
Running commands.

`respond` is a command as a function from the sources it loads to the files it writes and the text it prints. `execute`
carries it out over any way to read and write files: all sources are loaded first, files are written in order, and
nothing is printed on standard output if one of them cannot be written.
-/
import StyleCheck.Analysis
import StyleCheck.Audit.Run
import StyleCheck.Script.Scan
import StyleCheck.ThemeSplit
import StyleCheck.Source.FileTree
import StyleCheck.Report.Value
import StyleCheck.Report.Plain
import StyleCheck.CommandLine.Arguments

namespace StyleCheck.CommandLine

/-- what a run prints, and its exit code -/
structure Outcome where
  code : Nat
  stdout : String
  stderr : String
  deriving DecidableEq, Repr

/-- what a command does once its sources are loaded -/
structure Response where
  /-- paths and texts, in the order of writing -/
  writes : List (Text × Text)
  outcome : Outcome
  deriving DecidableEq, Repr

/-- loaded sources with their ids -/
structure Inputs where
  sources : List (SourceId × Loaded)
  deriving DecidableEq, Repr

namespace Inputs

/-- number sources from `first` on -/
def number (first : Nat) (loaded : List Loaded) : Inputs := ⟨(loaded.zipIdx first).map fun (l, i) => (⟨i⟩, l)⟩

/-- every source that is no script is read as a stylesheet -/
def sheets (config : ParseConfig) (i : Inputs) : List Stylesheet :=
  (i.sources.filter fun (_, l) => l.kind ≠ .script).map fun (id, l) => .parse config id l.text

/-- the identifiers of all scripts -/
def scripts (i : Inputs) : IdentifierSet :=
  .reduce ((i.sources.filter fun (_, l) => l.kind = .script).map fun (id, l) => Script.scan id l.text)

def names (i : Inputs) : Report.Plain.Names := i.sources.map fun (id, l) => (id, l.path)

end Inputs

/-- settings of the analyses of a run -/
def analysisConfig (attr : Text) (hex : Bool) : AnalysisConfig where
  parse := { themeAttribute := attr }
  scope := ⟨attr, hex⟩

/-- print a report in the form asked for -/
def print (json : Bool) (value : Json) (lines : List String) : Outcome where
  code := 0
  stdout := if json then String.ofList value.render else Report.Plain.unlines lines
  stderr := ""

/-- a run that ends with an error -/
def failure (message : String) : Outcome := ⟨2, "", s!"error: {message}\n"⟩

/-- the summary of a merge, which goes to standard error where it is plain text -/
def mergeSummary (json : Bool) (names : Report.Plain.Names) (m : Merged) : Outcome :=
  if json then print json (Report.merge m) []
  else ⟨0, "", Report.Plain.unlines (Report.Plain.mergeSummary names m)⟩

def merge (json : Bool) (out : Option Text) (names : Report.Plain.Names) (m : Merged) : Response :=
  match out with
  | some path => ⟨[(path, m.toCss)], mergeSummary json names m⟩
  | none => ⟨[], if json then mergeSummary json names m else ⟨0, String.ofList m.toCss, ""⟩⟩

/-- name of the file of a theme -/
def themeFile (name : Text) : Text := "theme-".toList ++ name ++ ".css".toList

/-- the files of a split: the base rules, then each theme -/
def splitFiles (outDir : Text) (s : ThemeSplit) : List (Text × List Rule) :=
  (Path.join outDir "base.css".toList, s.base) ::
    s.themes.map fun g => (Path.join outDir (themeFile g.name), g.rules)

def split (json : Bool) (attr outDir : Text) (sheet : Stylesheet) : Response :=
  let files := splitFiles outDir (.ofRules attr sheet.rules)
  let written := files.map fun (path, rules) => (path, rules.length)
  ⟨files.map fun (path, rules) => (path, Rule.toCss rules),
    print json (Report.split sheet.rules.length written) (Report.Plain.splitSummary sheet.rules.length written)⟩

/-- an audit fails if it reports an error -/
def audit (json : Bool) (names : Report.Plain.Names) (issues : List Audit.Issue) : Outcome :=
  { print json (Report.auditIssues issues) (Report.Plain.auditIssues names issues) with
    code := if issues.any (·.severity = .error) then 1 else 0 }

namespace Command

/-- sources to load; they are numbered from zero -/
def files : Command → List Text
  | merge fs _ => fs
  | vars _ fs _ => fs
  | animations fs => fs
  | integrity _ fs => fs
  | coverage fs => fs
  | audit fs _ => fs
  | split f _ => [f]

/-- sources to compare with; they are numbered behind the others -/
def references : Command → List Text
  | vars rs _ _ => rs
  | integrity rs _ => rs
  | _ => []

end Command

/-- what a command does with its sources -/
def respond (i : Invocation) (files references : List Loaded) : Response :=
  let inputs := Inputs.number 0 files
  let reference := Inputs.number files.length references
  let config := analysisConfig i.themeAttribute (match i.command with | .vars _ _ hex => hex | _ => false)
  let sheets := inputs.sheets config.parse
  let referenceSheets := reference.sheets config.parse
  let analysis := Analysis.analyze config sheets
  let names := inputs.names
  let reply (value : Json) (lines : List String) : Response := ⟨[], print i.json value lines⟩
  match i.command with
  | .merge _ out => merge i.json out names (Cascade.merge (sheets.map (·.rules)))
  | .vars _ _ _ =>
    let d := VariableDiff.compute (.ofRules config.scope (referenceSheets.flatMap (·.rules))) analysis.variableMap
    reply (Report.variableDiff d) (Report.Plain.variableDiff d)
  | .animations _ => reply (Report.bindings analysis.bindings) (Report.Plain.bindings names analysis.bindings)
  | .integrity _ _ =>
    let r := PreservationReport.compare (Analysis.analyze config referenceSheets).identifiers analysis.identifiers .all
    reply (Report.preservation r) (Report.Plain.preservation r)
  | .coverage _ =>
    let r := PreservationReport.coverage inputs.scripts analysis.identifiers
    reply (Report.preservation r) (Report.Plain.preservation r)
  | .audit _ settings =>
    let analysis := analysis.withMerge (Cascade.merge (sheets.map (·.rules)))
    ⟨[], audit i.json names (Audit.audit settings analysis)⟩
  | .split file outDir => match sheets with
    | sheet :: _ => split i.json i.themeAttribute outDir sheet
    | [] => ⟨[], failure s!"{String.ofList file} is not a stylesheet"⟩

/-- a way to read and write files -/
structure Files (m : Type → Type) where
  read : Text → m Reading
  /-- write a text to a path, and whether that worked -/
  write : Text → Text → m Bool

variable {m : Type → Type} [Monad m]

/-- write files one by one; the first path that cannot be written ends it -/
def writeAll (fs : Files m) : List (Text × Text) → m (Option Text)
  | [] => pure none
  | (path, text) :: rest => do
    if ← fs.write path text then writeAll fs rest else pure (some path)

/-- load several paths -/
def loadAll (fs : Files m) (paths : List Text) : m (List Loaded) :=
  paths.mapM fun p => do return .ofReading p (← fs.read p)

/-- carry out a command -/
def execute (fs : Files m) (i : Invocation) : m Outcome := do
  let files ← loadAll fs i.command.files
  let references ← loadAll fs i.command.references
  let response := respond i files references
  match ← writeAll fs response.writes with
  | none => return response.outcome
  | some path => return failure s!"Failed to write {String.ofList path}"

/-- the version of the program -/
def version : String := "css-audit 0.1.0"

/-- the commands and their options -/
def usage : String := "usage: css-audit [--json] [--theme-attr NAME] COMMAND [OPTIONS] FILES

  merge FILES [--out FILE]                       merge stylesheets, lowest precedence first
  vars --reference FILE FILES [--hex]            compare scoped custom properties
  animations FILES                               match animations with their keyframes
  integrity --reference FILE FILES               compare identifiers
  coverage FILES                                 look up identifiers of scripts in stylesheets
  audit FILES [--min-severity LEVEL] [--max-issues COUNT] [--disable CHECK]
  split FILE [--out-dir DIR]                     one file for the base and one for each theme"

/-- a whole run -/
def run (fs : Files m) (arguments : List Text) : m Outcome :=
  match parse arguments with
  | .ok i => execute fs i
  | .error .help => pure ⟨0, usage ++ "\n", ""⟩
  | .error .version => pure ⟨0, version ++ "\n", ""⟩
  | .error (.usage e) => pure (failure e.message)

/-- files of a tree held in memory -/
def treeFiles : Files (StateM FileTree) where
  read path := do return (← get).read path
  write path text := do
    match (← get).write? path text with
    | some t => set t; return true
    | none => return false

end StyleCheck.CommandLine
