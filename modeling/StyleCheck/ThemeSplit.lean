/-
Partition of rules into base rules and one group per theme.

A rule whose selector begins with the theme attribute belongs to the theme it names, every other rule to the base. The
groups stand in the order of their first rules; positions are renumbered within each group.
-/
import StyleCheck.Selector.Theme
import StyleCheck.Rule

namespace StyleCheck

/-- the rules of one theme -/
structure ThemeGroup where
  name : Text
  rules : List Rule
  deriving DecidableEq, Repr

/-- base rules and themes -/
structure ThemeSplit where
  base : List Rule
  themes : List ThemeGroup
  deriving DecidableEq, Repr

namespace ThemeSplit

/-- `rules` followed by `r` at its new position -/
def append (rules : List Rule) (r : Rule) : List Rule := rules ++ [{ r with position := rules.length }]

/-- put `r` into the group `name`, opening it where there is none -/
def addTo (name : Text) (r : Rule) : List ThemeGroup → List ThemeGroup
  | [] => [⟨name, append [] r⟩]
  | g :: gs => if g.name = name then { g with rules := append g.rules r } :: gs else g :: addTo name r gs

/-- one more rule -/
def add (attr : Text) (s : ThemeSplit) (r : Rule) : ThemeSplit :=
  match Selector.themeName? attr r.selector with
  | none => { s with base := append s.base r }
  | some name => { s with themes := addTo name r s.themes }

/-- the partition of a list of rules -/
def ofRules (attr : Text) (rules : List Rule) : ThemeSplit := rules.foldl (add attr) ⟨[], []⟩

def names (s : ThemeSplit) : List Text := s.themes.map (·.name)

/-- rules of one theme -/
def theme? (s : ThemeSplit) (name : Text) : Option (List Rule) :=
  (s.themes.find? (·.name = name)).map (·.rules)

def ruleCount (s : ThemeSplit) : Nat := s.base.length + (s.themes.flatMap (·.rules)).length

end ThemeSplit

end StyleCheck
