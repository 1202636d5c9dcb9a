/-
Identifiers in scripts.

Every match of every pattern of the catalog is recorded at the line of its first capture, patterns in catalog order.
Lists of classes and selectors with an interpolation in them are left out, and so is every name that is not over
`[A-Za-z0-9_-]`.
-/
import StyleCheck.Script.Catalog
import StyleCheck.Selector.Names
import StyleCheck.Identifier.Set

namespace StyleCheck.Script

open Text

/-- whether a value is computed when the script runs -/
def isInterpolated (t : Text) : Bool := contains ['$', '{'] t

/-- the classes in a list -/
def classList (t : Text) : List (Category × Text) :=
  if isInterpolated t then [] else (words t).map fun name => (.className, name)

/-- the names that the captures of a match stand for -/
def named (m : Meaning) (first : Text) (others : List Captured) : List (Category × Text) :=
  match m with
  | .classList => classList first
  | .quotedClasses => (search quoted first).flatMap fun cs => cs.map fun c => (.className, trim c.text)
  | .selector => if isInterpolated first then [] else Selector.names first
  | .id => [(.id, trim first)]
  | .attribute => match others with
    | value :: _ => if first = "class".toList then classList value.text else [(.id, trim value.text)]
    | [] => []
  | .property => [(.property, first)]

/-- the occurrences that one match records -/
def Entry.record (e : Entry) (source : SourceId) : List Captured → List Occurrence
  | [] => []
  | first :: others =>
    ((named e.meaning first.text others).filter fun (_, name) => isName name).map fun (category, name) =>
      ⟨category, name, source, first.line, e.name⟩

/-- every identifier of a script -/
def scan (source : SourceId) (t : Text) : IdentifierSet :=
  .ofOccurrences .script (catalog.flatMap fun e => (search e.pieces t).flatMap (e.record source))

end StyleCheck.Script
