/-
The animation that a declaration names.

An `animation` or `animation-name` value names at most one animation: its first word that is no function call, no
number or duration and no reserved keyword. A function call is skipped with all words up to its closing parenthesis.
-/
import StyleCheck.Declaration

namespace StyleCheck.Animation

open Text

/-- keywords that never name an animation -/
def keywords : List Text :=
  ["ease".toList, "ease-in".toList, "ease-out".toList, "ease-in-out".toList, "linear".toList, "step-start".toList,
    "step-end".toList, "infinite".toList, "alternate".toList, "alternate-reverse".toList, "reverse".toList,
    "normal".toList, "forwards".toList, "backwards".toList, "both".toList, "none".toList, "running".toList,
    "paused".toList, "initial".toList, "inherit".toList, "unset".toList]

/-- whether a word is a keyword or one of `extra`, ignoring case -/
def isReserved (extra : List Text) (word : Text) : Bool :=
  keywords.contains (lower word) || (extra.map lower).contains (lower word)

/-- whether a declaration of this property names an animation -/
def isProperty (property : Text) : Bool :=
  let p := Declaration.unprefixed property
  p == "animation".toList || p == "animation-name".toList

/-- a word without the unit of a duration -/
def dropUnit (word : Text) : Text :=
  (("ms".toList.isSuffixOf? word).or (['s'].isSuffixOf? word)).getD word

/-- a word without its sign -/
def dropSign : Text → Text
  | '+' :: t => t
  | '-' :: t => t
  | t => t

/-- a number or a duration: digits with at most one point -/
def isNumeric (word : Text) : Bool :=
  let digits := dropSign (dropUnit (lower word))
  digits.all (fun c => c.isDigit || c == '.') && digits.any Char.isDigit && digits.count '.' ≤ 1

/-- a word without the commas behind it and the quotes around it -/
def bare (word : Text) : Text := unquoteLoosely (word.reverse.dropWhile (· == ',')).reverse

/-- the first word that is a name, with `depth` parentheses open before the first word -/
def pick? (extra : List Text) (depth : Nat) : List Text → Option Text
  | [] => none
  | word :: ws =>
    if 0 < depth ∨ '(' ∈ word then pick? extra (depth + word.count '(' - word.count ')') ws
    else
      let name := bare word
      if name.isEmpty || isNumeric name || isReserved extra name then pick? extra depth ws else some name

/-- the animation that a value names -/
def named? (extra : List Text) (value : Text) : Option Text := pick? extra 0 (words value)

end StyleCheck.Animation
