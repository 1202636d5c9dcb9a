/-
Everything known about stylesheets that belong together.
-/
import StyleCheck.Identifier.Extract
import StyleCheck.Animation.Binding
import StyleCheck.Variable.Map
import StyleCheck.Cascade.Merge

namespace StyleCheck

/-- a selector defined more than once in one stylesheet -/
structure DuplicateSelector where
  source : SourceId
  selector : Text
  /-- line of every definition, in document order -/
  lines : List Nat
  deriving DecidableEq, Repr

namespace DuplicateSelector

/-- one more definition of a selector -/
def addLine (selector : Text) (line : Nat) : List (Text × List Nat) → List (Text × List Nat)
  | [] => [(selector, [line])]
  | e :: es => if e.1 = selector then (e.1, e.2 ++ [line]) :: es else e :: addLine selector line es

/-- the selectors of a stylesheet, each with the lines of its definitions, in order of first definition -/
def definitions (s : Stylesheet) : List (Text × List Nat) :=
  s.rules.foldl (fun ds r => addLine r.selector r.line ds) []

/-- the selectors defined more than once -/
def ofSheet (s : Stylesheet) : List DuplicateSelector :=
  ((definitions s).filter fun d => 1 < d.2.length).map fun d => ⟨s.source, d.1, d.2⟩

end DuplicateSelector

/-- settings of an analysis -/
structure AnalysisConfig where
  /-- of the grouping blocks that are parsed again -/
  parse : ParseConfig := {}
  scope : ScopeConfig := {}
  /-- keywords that never name an animation, besides those that are always reserved -/
  reserved : List Text := []
  deriving DecidableEq, Repr

/-- the analysis of stylesheets that belong together -/
structure Analysis where
  /-- in the order of the stylesheets -/
  perSheet : List IdentifierSet
  identifiers : IdentifierSet
  variableMap : VariableMap
  bindings : Bindings
  /-- of the stylesheets that were read only in part -/
  faults : List (SourceId × Fault)
  duplicates : List DuplicateSelector
  mergeWarnings : List ValuelessOverride
  deriving DecidableEq, Repr

namespace Analysis

def analyze (config : AnalysisConfig) (sheets : List Stylesheet) : Analysis :=
  let perSheet := sheets.map (·.identifiers config.parse config.reserved)
  let identifiers := IdentifierSet.reduce perSheet
  { perSheet
    identifiers
    variableMap := .ofRules config.scope (sheets.flatMap (·.rules))
    bindings := .ofSet identifiers
    faults := sheets.filterMap fun s => s.fault.map fun f => (s.source, f)
    duplicates := sheets.flatMap DuplicateSelector.ofSheet
    mergeWarnings := [] }

/-- the analysis with the warnings of a merge of the same stylesheets -/
def withMerge (a : Analysis) (m : Merged) : Analysis := { a with mergeWarnings := m.warnings }

end Analysis

end StyleCheck
