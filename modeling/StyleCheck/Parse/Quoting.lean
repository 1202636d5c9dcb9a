/-
Where a character stands with regard to string literals and escapes.

A quote in code opens a literal; the same quote or a line feed ends it. A backslash, inside a literal or outside, hides
exactly the next character. `Quoting.run` reads a text; `run_append` composes readings, so that what a text means to
what follows it is the state its reading ends in.
-/
import StyleCheck.Text.Basic

namespace StyleCheck

/-- the state between two characters -/
structure Quoting where
  /-- the quote of the literal we are in -/
  quote : Option Char
  /-- the last character was a backslash that hides the next one -/
  escaped : Bool
  deriving DecidableEq, Repr

namespace Quoting

/-- outside any literal, with nothing hidden -/
def code : Quoting := ⟨none, false⟩

/-- whether the next character is read as code -/
def isCode (s : Quoting) : Bool := s.quote.isNone && !s.escaped

/-- whether a literal ends at `c` although its quote is not closed -/
def isCutBy (s : Quoting) (c : Char) : Bool := s.quote.isSome && !s.escaped && c == '\n'

/-- one character -/
def next (s : Quoting) (c : Char) : Quoting :=
  if s.escaped then { s with escaped := false }
  else if c = '\\' then { s with escaped := true }
  else match s.quote with
    | none => if Text.isQuote c then ⟨some c, false⟩ else s
    | some q => if c = q ∨ c = '\n' then code else s

/-- a whole text -/
def run (s : Quoting) (t : Text) : Quoting := t.foldl next s

@[simp] theorem isCode_code : isCode code = true := rfl

@[simp] theorem run_nil (s : Quoting) : s.run [] = s := rfl

@[simp] theorem run_cons (s : Quoting) (c : Char) (t : Text) : s.run (c :: t) = (s.next c).run t := rfl

theorem run_append (s : Quoting) (a b : Text) : s.run (a ++ b) = (s.run a).run b := List.foldl_append

/-- code is the only state whose next character is read as code -/
theorem isCode_iff (s : Quoting) : s.isCode = true ↔ s = code := by
  obtain ⟨q, e⟩ := s
  cases q <;> cases e <;> simp [isCode, code]

end Quoting

end StyleCheck
