/-
The patterns that find identifiers in scripts.

Scripts are not parsed. Each entry of the catalog recognises one way of naming a class, an id or a custom property in
raw text and says what its captures mean. Names computed at run time stay invisible, and matches in comments count.
-/
import StyleCheck.Script.Pattern

namespace StyleCheck.Script

/-- what the captures of a pattern mean -/
inductive Meaning where
  /-- a list of classes -/
  | classList
  /-- quoted arguments, each a class -/
  | quotedClasses
  | selector
  | id
  /-- the attribute `class` or `id`, and its value -/
  | attribute
  | property
  deriving DecidableEq, Repr

/-- a pattern with its name -/
structure Entry where
  name : Text
  pieces : List Piece
  meaning : Meaning
  deriving DecidableEq, Repr

/-- the double quote, the single quote and the backquote -/
def quotes : List Char := ['"', '\'', '\x60']

/-- the quotes of markup -/
def plainQuotes : List Char := ['"', '\'']

/-- a quoted text, captured without its quotes -/
def quoted : List Piece := [.oneOf quotes, .upTo quotes, .oneOf quotes]

/-- `=` and a quoted text -/
def assigned : List Piece := [.blanks, .literal ['='], .blanks] ++ quoted

/-- `(` and what follows it first -/
def called (arguments : List Piece) : List Piece := [.blanks, .literal ['('], .blanks] ++ arguments

/-- an attribute in markup that may stand in a string -/
def markup (name : Text) : List Piece :=
  [.blank, .literal (name ++ ['=']), .optional '\\', .oneOf plainQuotes, .upTo ['"', '\'', '\\'], .optional '\\',
    .oneOf plainQuotes]

/-- every pattern, in the order in which they are searched -/
def catalog : List Entry := [
  ⟨"class-name-assign".toList, .literal ".className".toList :: assigned, .classList⟩,
  ⟨"class-list-call".toList,
    [.literal ".classList".toList, .blanks, .literal ['.'], .blanks,
      .choice ["add".toList, "remove".toList, "toggle".toList, "contains".toList, "replace".toList],
      .blanks, .literal ['('], .upTo [')'], .literal [')']],
    .quotedClasses⟩,
  ⟨"query-selector".toList,
    [.wordStart, .choice ["querySelectorAll".toList, "querySelector".toList, "closest".toList, "matches".toList]] ++
      called quoted,
    .selector⟩,
  ⟨"element-by-id".toList, [.wordStart, .literal "getElementById".toList] ++ called quoted, .id⟩,
  ⟨"elements-by-class".toList, [.wordStart, .literal "getElementsByClassName".toList] ++ called quoted, .classList⟩,
  ⟨"set-attribute".toList,
    [.wordStart, .literal "setAttribute".toList] ++
      called [.oneOf plainQuotes, .word ["class".toList, "id".toList], .oneOf plainQuotes, .blanks, .literal [','],
        .blanks] ++
      quoted,
    .attribute⟩,
  ⟨"id-assign".toList, .literal ".id".toList :: assigned, .id⟩,
  ⟨"markup-class".toList, markup "class".toList, .classList⟩,
  ⟨"markup-id".toList, markup "id".toList, .id⟩,
  ⟨"property-call".toList,
    [.wordStart, .choice ["setProperty".toList, "getPropertyValue".toList, "removeProperty".toList]] ++
      called [.oneOf quotes, .property, .oneOf quotes],
    .property⟩,
  ⟨"var-reference".toList, [.literal "var(".toList, .blanks, .property], .property⟩]

end StyleCheck.Script
