/-
Themes in selectors.

`themeName?` reads the theme that a selector begins with, whatever follows the attribute. `scopeKey?` accepts only the
global scope and selectors that are nothing but a theme attribute, and gives all spellings of one theme the same key.
-/
import StyleCheck.Selector.Basic

namespace StyleCheck.Selector

open Text

/-- value of the theme attribute that a selector begins with, without quotes; an empty value names no theme -/
def themeName? (attr selector : Text) : Option Text := do
  let t ← dropFirst? '[' (trimStart selector)
  let t ← attr.isPrefixOf? (trimStart t)
  let t ← dropFirst? '=' (trimStart t)
  let (value, _) ← cut? ']' t
  let name := trim (unquote (trim value))
  if name.isEmpty then none else some name

/-- key of the global scope -/
def rootKey : Text := ":root".toList

/-- key of a theme -/
def themeKey (attr name : Text) : Text := '[' :: attr ++ "=\"".toList ++ name ++ "\"]".toList

/-- key of the scope that a selector names, if it is exactly a scope -/
def scopeKey? (attr selector : Text) : Option Text :=
  let selector := trim selector
  if selector = rootKey then some rootKey
  else do
    let t ← dropFirst? '[' selector
    let t ← dropLast? (· == ']') t
    let (written, value) ← cut? '=' t
    let name := unquote (trim value)
    if trim written = attr ∧ isName name then some (themeKey attr name) else none

/-- name inside the key of a theme -/
def keyTheme? (key : Text) : Option Text := do
  let (_, value) ← cutAtQuoted? key
  let t ← dropLast? (· == ']') value
  dropLast? (· == '"') t
where
  /-- the texts around the first equals sign that a double quote follows -/
  cutAtQuoted? : Text → Option (Text × Text)
    | [] => none
    | '=' :: '"' :: t => some ([], t)
    | c :: t => (cutAtQuoted? t).map fun (before, after) => (c :: before, after)

end StyleCheck.Selector
