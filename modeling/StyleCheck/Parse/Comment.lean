/-
Removal of comments.

Comments are dropped and their line feeds kept, so that lines stay where they were. Comment openers inside string
literals or behind a backslash are text. The machine holds a slash back until the next character tells whether it opens
a comment; the star of an opener does not count towards the closer.
-/
import StyleCheck.Parse.Quoting
import StyleCheck.Parse.Problem

namespace StyleCheck.Comment

/-- what has been read so far stands -/
inductive Place where
  /-- in text -/
  | text (q : Quoting)
  /-- after a slash in code, which has not been kept yet -/
  | slash
  /-- in a comment opened on line `opened` -/
  | comment (opened : Nat)
  /-- in such a comment, after a star -/
  | star (opened : Nat)
  deriving DecidableEq, Repr

/-- the machine: `kept` is the text to keep, last character first -/
structure St where
  place : Place
  line : Nat
  kept : Text
  deriving DecidableEq, Repr

/-- the characters that one character lets through, last one first -/
def passed (c : Char) : Place → Text
  | .text q => if q.isCode ∧ c = '/' then [] else [c]
  | .slash => if c = '*' then [] else if c = '/' then ['/'] else [c, '/']
  | .comment _ => if c = '\n' then [c] else []
  | .star _ => if c = '\n' then [c] else []

/-- where one character on line `line` leads -/
def Place.next (line : Nat) (c : Char) : Place → Place
  | .text q => if q.isCode ∧ c = '/' then .slash else .text (q.next c)
  | .slash => if c = '*' then .comment line else if c = '/' then .slash else .text (Quoting.code.next c)
  | .comment opened => if c = '*' then .star opened else .comment opened
  | .star opened => if c = '/' then .text .code else if c = '*' then .star opened else .comment opened

/-- one character -/
def step (s : St) (c : Char) : St where
  place := s.place.next s.line c
  line := if c = '\n' then s.line + 1 else s.line
  kept := passed c s.place ++ s.kept

/-- read a whole text -/
def run (s : St) (t : Text) : St := t.foldl step s

/-- before the first character, which is on line `line` -/
def start (line : Nat) : St := ⟨.text .code, line, []⟩

/-- a slash held back until the next character -/
def Place.held : Place → Text
  | .slash => ['/']
  | _ => []

/-- what is kept of the text read; a slash at its very end is text after all -/
def St.text (s : St) : Text := (s.place.held ++ s.kept).reverse

/-- a comment still open at the end is reported where it was opened -/
def St.issues (s : St) : List Issue :=
  match s.place with
  | .comment opened => [⟨.unterminatedComment, opened⟩]
  | .star opened => [⟨.unterminatedComment, opened⟩]
  | _ => []

/-- `t` without its comments -/
def strip (t : Text) : Text := (run (start 1) t).text

theorem run_append (s : St) (a b : Text) : run s (a ++ b) = run (run s a) b := List.foldl_append

/-- what a character lets through and leaves held back was held back before or is that character -/
theorem passed_sublist (line : Nat) (c : Char) (p : Place) :
    ((p.next line c).held ++ passed c p).reverse.Sublist (p.held.reverse ++ [c]) := by
  cases p with
  | text q => by_cases h : q.isCode ∧ c = '/' <;> simp [passed, Place.next, Place.held, h]
  | slash => by_cases h : c = '*' <;> by_cases h' : c = '/' <;> simp [passed, Place.next, Place.held, h, h']
  | comment o => by_cases h : c = '\n' <;> by_cases h' : c = '*' <;> simp [passed, Place.next, Place.held, h, h']
  | star o => by_cases h : c = '\n' <;> by_cases h' : c = '/' <;> by_cases h'' : c = '*' <;>
      simp [passed, Place.next, Place.held, h, h', h'']

theorem text_run_sublist (s : St) (t : Text) : (run s t).text.Sublist (s.text ++ t) := by
  induction t generalizing s with
  | nil => simp [run]
  | cons c t ih =>
    refine (ih (step s c)).trans ?_
    have h := (passed_sublist s.line c s.place).append_left s.kept.reverse
    have h' : (step s c).text.Sublist (s.text ++ [c]) := by
      simpa [St.text, step] using h
    simpa using h'.append_right t

/-- removal only drops characters, wherever the first line is -/
theorem text_sublist (line : Nat) (t : Text) : (run (start line) t).text.Sublist t := by
  simpa [start, St.text, Place.held] using text_run_sublist (start line) t

end StyleCheck.Comment
