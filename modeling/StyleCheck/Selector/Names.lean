/-
Class and id names in selectors.

A name is the run of identifier characters behind a dot or a hash. Strings and attribute brackets are skipped, and a
backslash hides the next character; the arguments of pseudo-classes are searched like everything else.
-/
import StyleCheck.Text.Basic
import StyleCheck.Identifier.Category

namespace StyleCheck.Selector

open Text

namespace Names

/-- where we are in a selector; `bracket` says whether an attribute bracket is open around it -/
inductive Place where
  | outside
  | attribute
  /-- behind a dot or hash, with the characters of the name so far, last one first -/
  | name (category : Category) (seen : Text)
  | escaped (bracket : Bool)
  | quoted (bracket : Bool) (quote : Char)
  | quotedEscaped (bracket : Bool) (quote : Char)
  deriving DecidableEq, Repr

/-- the machine: names found so far, last one first -/
structure St where
  place : Place
  found : List (Category × Text)
  deriving DecidableEq, Repr

/-- the place around a string or escape -/
def around (bracket : Bool) : Place := if bracket then .attribute else .outside

/-- where a character outside strings, brackets and names leads -/
def enter (c : Char) : Place :=
  if c = '\\' then .escaped false
  else if isQuote c then .quoted false c
  else if c = '[' then .attribute
  else if c = '.' then .name .className []
  else if c = '#' then .name .id []
  else .outside

/-- whether a run of identifier characters is a name: it begins with a letter or underscore, possibly behind a dash -/
def isIdentifier : Text → Bool
  | '-' :: c :: _ => isIdentChar c && !c.isDigit
  | ['-'] => false
  | c :: _ => c.isAlpha || c == '_' || 0x80 ≤ c.toNat
  | [] => false

/-- a name that has ended -/
def close (category : Category) (seen : Text) (found : List (Category × Text)) : List (Category × Text) :=
  if isIdentifier seen.reverse then (category, seen.reverse) :: found else found

/-- one character -/
def step (s : St) (c : Char) : St :=
  match s.place with
  | .outside => { s with place := enter c }
  | .name k seen =>
    if isIdentChar c then { s with place := .name k (c :: seen) } else ⟨enter c, close k seen s.found⟩
  | .attribute =>
    { s with place :=
        if c = '\\' then .escaped true
        else if isQuote c then .quoted true c
        else if c = ']' then .outside
        else .attribute }
  | .escaped b => { s with place := around b }
  | .quoted b q => { s with place := if c = '\\' then .quotedEscaped b q else if c = q then around b else .quoted b q }
  | .quotedEscaped b q => { s with place := .quoted b q }

/-- the names found once the selector has ended -/
def St.finish (s : St) : List (Category × Text) :=
  match s.place with
  | .name k seen => (close k seen s.found).reverse
  | _ => s.found.reverse

end Names

/-- class and id names of a selector, in order of appearance -/
def names (selector : Text) : List (Category × Text) := (selector.foldl Names.step ⟨.outside, []⟩).finish

end StyleCheck.Selector
