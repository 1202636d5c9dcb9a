/-
Patterns over script text.

A pattern is a sequence of pieces, each of which reads as much as it can. In every pattern used here a piece that
repeats is followed by a character it cannot read itself, so this single left-to-right reading finds a match wherever
there is one. `search` lists the matches of a text from left to right; a match begins behind the one before it.
-/
import StyleCheck.Text.Basic
import StyleCheck.Text.Word

namespace StyleCheck.Script

open Text

/-- a part of a pattern -/
inductive Piece where
  /-- the next character begins a word: there is no word character before it -/
  | wordStart
  | literal (t : Text)
  /-- one of several texts, the first that fits -/
  | choice (ts : List Text)
  /-- one blank -/
  | blank
  /-- any number of blanks -/
  | blanks
  /-- one of several characters -/
  | oneOf (cs : List Char)
  /-- a character that may be left out -/
  | optional (c : Char)
  /-- captures all characters up to one of `stops` -/
  | upTo (stops : List Char)
  /-- captures one of several texts -/
  | word (ts : List Text)
  /-- captures two dashes and the name characters behind them, at least one -/
  | property
  deriving DecidableEq, Repr

/-- a place in a text -/
structure Cursor where
  /-- the character before it -/
  last : Option Char
  line : Nat
  rest : Text
  deriving DecidableEq, Repr

/-- a captured text and the line it begins on -/
structure Captured where
  line : Nat
  text : Text
  deriving DecidableEq, Repr

namespace Piece

def isCapture : Piece → Bool
  | upTo _ | word _ | property => true
  | _ => false

/-- the first of several texts that `t` begins with, and the rest -/
def firstOf? (ts : List Text) (t : Text) : Option (Text × Text) :=
  ts.findSome? fun u => (u.isPrefixOf? t).map fun rest => (u, rest)

/-- what a piece reads from `t`, which follows `last`, and the rest -/
def read? (last : Option Char) (t : Text) : Piece → Option (Text × Text)
  | wordStart => if last.any isWordChar then none else some ([], t)
  | literal u => firstOf? [u] t
  | choice ts => firstOf? ts t
  | word ts => firstOf? ts t
  | blank => match t with
    | c :: rest => if isBlank c then some ([c], rest) else none
    | [] => none
  | blanks => some (t.span isBlank)
  | oneOf cs => match t with
    | c :: rest => if c ∈ cs then some ([c], rest) else none
    | [] => none
  | optional d => match t with
    | c :: rest => if c = d then some ([c], rest) else some ([], t)
    | [] => some ([], [])
  | upTo stops => some (t.span (· ∉ stops))
  | property => match t with
    | '-' :: '-' :: t' =>
      let (name, rest) := t'.span isNameChar
      if name.isEmpty then none else some ('-' :: '-' :: name, rest)
    | _ => none

end Piece

/-- the place behind `read` -/
def Cursor.advance (k : Cursor) (read rest : Text) : Cursor where
  last := read.getLast?.or k.last
  line := k.line + newlines read
  rest := rest

/-- what a sequence of pieces captures at a place, and the place behind it -/
def readAll? : List Piece → Cursor → Option (List Captured × Cursor)
  | [], k => some ([], k)
  | p :: ps, k => do
    let (read, rest) ← p.read? k.last k.rest
    let (captured, k') ← readAll? ps (k.advance read rest)
    some (if p.isCapture then ⟨k.line, read⟩ :: captured else captured, k')

/-- the captures of every match in `t`, which begins on line `line` behind `last`; the first `skip` characters belong
to a match already found -/
def searchFrom (ps : List Piece) (skip : Nat) (last : Option Char) (line : Nat) : Text → List (List Captured)
  | [] => []
  | c :: t =>
    let line' := if c = '\n' then line + 1 else line
    match skip with
    | n + 1 => searchFrom ps n (some c) line' t
    | 0 => match readAll? ps ⟨last, line, c :: t⟩ with
      | some (captured, k) => captured :: searchFrom ps (t.length - k.rest.length) (some c) line' t
      | none => searchFrom ps 0 (some c) line' t

/-- the captures of every match in a whole text -/
def search (ps : List Piece) (t : Text) : List (List Captured) := searchFrom ps 0 none 1 t

end StyleCheck.Script
