/-
Hexadecimal colours.
-/
import StyleCheck.Text.Basic

namespace StyleCheck.Colour

open Text

/-- value of a hexadecimal digit -/
def digit? (c : Char) : Option Nat :=
  if '0' ≤ c ∧ c ≤ '9' then some (c.toNat - '0'.toNat)
  else if 'a' ≤ c ∧ c ≤ 'f' then some (c.toNat - 'a'.toNat + 10)
  else if 'A' ≤ c ∧ c ≤ 'F' then some (c.toNat - 'A'.toNat + 10)
  else none

/-- three channels from three digits, each meant twice, or from six -/
def channels? : List Nat → Option (Nat × Nat × Nat)
  | [r, g, b] => some (16 * r + r, 16 * g + g, 16 * b + b)
  | [r, r', g, g', b, b'] => some (16 * r + r', 16 * g + g', 16 * b + b')
  | _ => none

/-- the channels of `#rgb` or `#rrggbb`, blanks around it aside -/
def ofHex? (value : Text) : Option (Nat × Nat × Nat) := do
  let digits ← dropFirst? '#' (trim value)
  let digits ← digits.mapM digit?
  channels? digits

/-- a number in decimal -/
def decimal (n : Nat) : Text := (toString n).toList

/-- the channels in decimal, one space apart -/
def triplet : Nat × Nat × Nat → Text
  | (r, g, b) => decimal r ++ [' '] ++ decimal g ++ [' '] ++ decimal b

/-- a hexadecimal colour as its decimal channels; nothing else is a colour -/
def hexToTriplet? (value : Text) : Option Text := (ofHex? value).map triplet

end StyleCheck.Colour
