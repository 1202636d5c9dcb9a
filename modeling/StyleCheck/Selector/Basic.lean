/-
Selectors and at-rule preludes.

The normal form of a prelude is its words, one space apart. What a rule is for follows from its normal form alone:
`kind` looks at the keyword of an at-rule, or at a leading theme attribute.
-/
import StyleCheck.Text.Basic

namespace StyleCheck

/-- what a rule is for -/
inductive RuleKind where
  /-- an ordinary selector, or an at-rule without special handling -/
  | plain
  /-- a media block -/
  | media
  /-- keyframes, possibly with a vendor in front -/
  | keyframes
  /-- a selector that begins with the theme attribute -/
  | theme
  deriving DecidableEq, Repr

def RuleKind.all : List RuleKind := [.plain, .media, .keyframes, .theme]

namespace Selector

open Text

/-- the attribute that names themes where nothing else is said -/
def defaultThemeAttribute : Text := "data-theme".toList

/-- the words of a prelude, one space apart -/
def normalize (t : Text) : Text := [' '].intercalate (words t)

/-- keyword of an at-rule in lower case, up to a blank or an opening parenthesis -/
def atKeyword? : Text → Option Text
  | '@' :: t => some (lower (t.takeWhile fun c => !(isBlank c || c == '(')))
  | _ => none

def isKeyframesKeyword (keyword : Text) : Bool :=
  keyword == "keyframes".toList || dropVendor? keyword == some "keyframes".toList

/-- whether a normal form begins with the theme attribute and an equals sign -/
def isThemed (attr selector : Text) : Bool :=
  match (dropFirst? '[' selector).bind fun t => attr.isPrefixOf? (trimStart t) with
  | some t => (trimStart t).head? == some '='
  | none => false

/-- what a rule with this normal form is for -/
def kind (attr selector : Text) : RuleKind :=
  match atKeyword? selector with
  | some keyword =>
    if keyword = "media".toList then .media
    else if isKeyframesKeyword keyword then .keyframes
    else .plain
  | none => if isThemed attr selector then .theme else .plain

/-- at-rules besides media whose bodies hold ordinary rules -/
def groupingKeywords : List Text :=
  ["supports".toList, "layer".toList, "container".toList, "document".toList, "scope".toList]

def isGrouping (selector : Text) : Bool :=
  match atKeyword? selector with
  | some keyword => groupingKeywords.contains keyword
  | none => false

/-- the name that a keyframes prelude declares: all that follows its first space, without quotes -/
def keyframesName? (selector : Text) : Option Text :=
  match cut? ' ' selector with
  | some (_, name) =>
    let name := unquoteLoosely (trim name)
    if name.isEmpty then none else some name
  | none => none

end Selector

end StyleCheck
