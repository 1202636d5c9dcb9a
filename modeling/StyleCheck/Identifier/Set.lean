/-
Sets of identifiers with every place they occur.

A set holds one tally per category and the list of occurrences the tallies were recorded from. Sets are built per
source and combined by `reduce`; a set read from a script is advisory, and so is all that it is combined into.
-/
import StyleCheck.Rule
import StyleCheck.Identifier.Tally
import StyleCheck.Identifier.Category

namespace StyleCheck

/-- what a set was read from -/
inductive Origin where
  /-- rules of stylesheets -/
  | stylesheet
  /-- patterns in scripts, which both over- and undercount -/
  | script
  deriving DecidableEq, Repr

/-- one occurrence of a name -/
structure Occurrence where
  category : Category
  name : Text
  source : SourceId
  line : Nat
  /-- the selector, declaration or pattern the name was found in -/
  context : Text
  deriving DecidableEq, Repr

/-- names per category, and where they occur -/
structure IdentifierSet where
  origin : Origin
  tallies : ByCategory (Tally Text)
  /-- in the order of recording -/
  occurrences : List Occurrence
  deriving DecidableEq, Repr

namespace IdentifierSet

def empty (origin : Origin) : IdentifierSet := ⟨origin, .const .empty, []⟩

/-- record one occurrence -/
def record (s : IdentifierSet) (o : Occurrence) : IdentifierSet :=
  { s with
    tallies := s.tallies.modify (·.record o.name) o.category
    occurrences := s.occurrences ++ [o] }

/-- the set of a list of occurrences -/
def ofOccurrences (origin : Origin) (os : List Occurrence) : IdentifierSet := os.foldl record (empty origin)

/-- whether its counts are approximations -/
def isAdvisory (s : IdentifierSet) : Bool := s.origin = .script

def tally (s : IdentifierSet) (c : Category) : Tally Text := s.tallies.get c

def count (s : IdentifierSet) (c : Category) (name : Text) : Nat := (s.tally c).count name

def contains (s : IdentifierSet) (c : Category) (name : Text) : Bool := (s.tally c).contains name

/-- where `name` occurs in a category -/
def occurrencesOf (s : IdentifierSet) (c : Category) (name : Text) : List Occurrence :=
  s.occurrences.filter fun o => o.category = c ∧ o.name = name

def isEmpty (s : IdentifierSet) : Bool := Category.all.all fun c => (s.tally c).entries.isEmpty

/-- `s` with everything in `other` added behind -/
def absorb (s other : IdentifierSet) : IdentifierSet where
  origin := if other.isAdvisory then .script else s.origin
  tallies := s.tallies.zipWith Tally.absorb other.tallies
  occurrences := s.occurrences ++ other.occurrences

/-- all sets in one -/
def reduce (sets : List IdentifierSet) : IdentifierSet := sets.foldl absorb (empty .stylesheet)

end IdentifierSet

end StyleCheck
