/-
Identifiers of a reference against those of the present.

In each category the names of the reference are preserved or missing, and names that only the present has are extra.
Scores are shares of distinct names, not of occurrences.
-/
import StyleCheck.Identifier.Set
import StyleCheck.Integrity.Score

namespace StyleCheck

/-- a name on both sides -/
structure PreservedName where
  name : Text
  referenceCount : Nat
  currentCount : Nat
  deriving DecidableEq, Repr

/-- a name on one side -/
structure UnpairedName where
  name : Text
  count : Nat
  deriving DecidableEq, Repr

/-- the comparison of one category -/
structure CategoryReport where
  category : Category
  /-- in the order of the reference -/
  preserved : List PreservedName
  /-- in the order of the reference -/
  missing : List UnpairedName
  /-- in the order of the present -/
  extra : List UnpairedName
  score : Score
  deriving DecidableEq, Repr

namespace CategoryReport

/-- compare two tallies; a name counted zero times on the present side is missing there -/
def compute (category : Category) (reference current : Tally Text) : CategoryReport :=
  let (kept, lost) := reference.entries.partition fun e => current.count e.1 != 0
  { category
    preserved := kept.map fun e => ⟨e.1, e.2, current.count e.1⟩
    missing := lost.map fun e => ⟨e.1, e.2⟩
    extra := (current.entries.filter fun e => !reference.contains e.1).map fun e => ⟨e.1, e.2⟩
    score := .ofCounts kept.length (kept.length + lost.length) }

/-- preserved names whose counts differ -/
def changes (r : CategoryReport) : List PreservedName := r.preserved.filter fun p => p.referenceCount != p.currentCount

/-- number of names in the reference -/
def referenceTotal (r : CategoryReport) : Nat := r.preserved.length + r.missing.length

end CategoryReport

/-- the comparison of the selected categories -/
structure PreservationReport where
  /-- in report order -/
  categories : List CategoryReport
  aggregate : Score
  /-- one side was read from a script -/
  advisory : Bool
  deriving DecidableEq, Repr

namespace PreservationReport

def grade (r : PreservationReport) : Grade := r.aggregate.grade

def totalMissing (r : PreservationReport) : Nat := (r.categories.flatMap (·.missing)).length

def category? (r : PreservationReport) (c : Category) : Option CategoryReport :=
  r.categories.find? (·.category = c)

/-- compare `current` with `reference` in the selected categories -/
def compare (reference current : IdentifierSet) (selected : CategorySet) : PreservationReport :=
  let categories := selected.categories.map fun c => CategoryReport.compute c (reference.tally c) (current.tally c)
  { categories
    aggregate := .ofCounts (categories.flatMap (·.preserved)).length
      ((categories.flatMap (·.preserved)).length + (categories.flatMap (·.missing)).length)
    advisory := reference.isAdvisory || current.isAdvisory }

/-- the classes, ids and custom properties that scripts use against those that stylesheets define -/
def coverage (scripts definitions : IdentifierSet) : PreservationReport :=
  compare scripts definitions (.ofList [.className, .id, .property])

end PreservationReport

end StyleCheck
