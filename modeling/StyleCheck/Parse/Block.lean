/-
The blocks of a comment-free text.

A block is what stands before a brace at depth zero (its prelude) and what stands between that brace and the one that
closes it (its body), both verbatim. Braces and semicolons inside string literals or behind a backslash are text.
A semicolon at depth zero ends a statement such as an import; a closing brace at depth zero is stepped over.

`run` reads a text character by character, `finish` says what its end means. Main statement: `block_size_le`, the
prelude, the body and the two braces of a block are together no larger than the text.
-/
import StyleCheck.Parse.Quoting
import StyleCheck.Parse.Problem

namespace StyleCheck

/-- a block at depth zero -/
structure Block where
  prelude : Text
  body : Text
  /-- line of the first character of the prelude, or of the opening brace where there is none -/
  line : Nat
  /-- line of the opening brace -/
  openLine : Nat
  deriving DecidableEq, Repr

namespace Block

/-- where we are with regard to blocks; texts being collected are last character first -/
inductive Place where
  /-- at depth zero, with nothing begun -/
  | between
  /-- in text at depth zero that began on line `line` -/
  | before (line : Nat) (seen : Text)
  /-- in a block, with `depth` further braces open inside it -/
  | within (prelude : Text) (line openLine depth : Nat) (seen : Text)
  deriving DecidableEq, Repr

/-- the machine; lists are last element first -/
structure St where
  quoting : Quoting
  line : Nat
  place : Place
  blocks : List Block
  issues : List Issue
  statements : Nat
  deriving DecidableEq, Repr

/-- before the first character, which is on line `line` -/
def start (line : Nat) : St := ⟨.code, line, .between, [], [], 0⟩

/-- a character that only has to be collected; ASCII blanks begin nothing -/
def Place.keep (line : Nat) (c : Char) : Place → Place
  | .between => if Text.isAsciiBlank c then .between else .before line [c]
  | .before l seen => .before l (c :: seen)
  | .within p l o d seen => .within p l o d (c :: seen)

/-- an opening brace in code -/
def openBrace (s : St) : St :=
  { s with place := match s.place with
    | .between => .within [] s.line s.line 0 []
    | .before l seen => .within seen.reverse l s.line 0 []
    | .within p l o d seen => .within p l o (d + 1) ('{' :: seen) }

/-- a closing brace in code -/
def closeBrace (s : St) : St :=
  match s.place with
  | .within p l o 0 seen => { s with place := .between, blocks := ⟨p, seen.reverse, l, o⟩ :: s.blocks }
  | .within p l o (d + 1) seen => { s with place := .within p l o d ('}' :: seen) }
  | _ => { s with place := .between, issues := ⟨.strayCloseBrace, s.line⟩ :: s.issues }

/-- a semicolon in code -/
def semicolon (s : St) : St :=
  match s.place with
  | .between => s
  | .before _ _ => { s with place := .between, statements := s.statements + 1 }
  | .within p l o d seen => { s with place := .within p l o d (';' :: seen) }

/-- what one character does to blocks, issues and statements -/
def act (s : St) (c : Char) : St :=
  if s.quoting.isCode ∧ c = '{' then openBrace s
  else if s.quoting.isCode ∧ c = '}' then closeBrace s
  else if s.quoting.isCode ∧ c = ';' then semicolon s
  else { s with
    place := s.place.keep s.line c
    issues := if s.quoting.isCutBy c then ⟨.unterminatedString, s.line⟩ :: s.issues else s.issues }

/-- one character -/
def step (s : St) (c : Char) : St :=
  { act s c with
    quoting := s.quoting.next c
    line := if c = '\n' then s.line + 1 else s.line }

/-- read a whole text -/
def run (s : St) (t : Text) : St := t.foldl step s

/-- everything found in a text -/
structure Found where
  blocks : List Block
  issues : List Issue
  fault : Option Fault
  statements : Nat
  deriving DecidableEq, Repr

/-- a block open at the end is a fault; visible text that opened none is reported -/
def St.finish (s : St) : Found where
  blocks := s.blocks.reverse
  issues := match s.place with
    | .before l seen => if seen.all Text.isBlank then s.issues.reverse else
        s.issues.reverse ++ [⟨.trailingContent, l⟩]
    | _ => s.issues.reverse
  fault := match s.place with
    | .within _ _ o d _ => some (.unterminatedBlock o (d + 1))
    | _ => none
  statements := s.statements

/-- everything in a text whose first character is on line `line` -/
def scan (line : Nat) (t : Text) : Found := (run (start line) t).finish

theorem run_append (s : St) (a b : Text) : run s (a ++ b) = run (run s a) b := List.foldl_append

/-- size of a block with its braces -/
def size (b : Block) : Nat := Text.byteSize b.prelude + Text.byteSize b.body + 2

/-- size of what is being collected -/
def Place.size : Place → Nat
  | .between => 0
  | .before _ seen => Text.byteSize seen
  | .within p _ _ _ seen => Text.byteSize p + 1 + Text.byteSize seen

/-- size of several blocks -/
def sizes (bs : List Block) : Nat := bs.foldr (fun b n => b.size + n) 0

@[simp] theorem sizes_nil : sizes [] = 0 := rfl

@[simp] theorem sizes_cons (b : Block) (bs : List Block) : sizes (b :: bs) = b.size + sizes bs := rfl

/-- size of everything collected -/
def St.size (s : St) : Nat := sizes s.blocks + s.place.size

theorem size_openBrace_le (s : St) : (openBrace s).size ≤ s.size + 1 := by
  have h : '{'.utf8Size = 1 := rfl
  rcases hp : s.place with _ | ⟨l, seen⟩ | ⟨p, l, o, d, seen⟩ <;> simp [openBrace, St.size, Place.size, hp, h] <;> omega

theorem size_closeBrace_le (s : St) : (closeBrace s).size ≤ s.size + 1 := by
  have h : '}'.utf8Size = 1 := rfl
  rcases hp : s.place with _ | ⟨l, seen⟩ | ⟨p, l, o, _ | d, seen⟩ <;>
    simp [closeBrace, St.size, Place.size, Block.size, hp, h] <;> omega

theorem size_semicolon_le (s : St) : (semicolon s).size ≤ s.size + 1 := by
  have h : ';'.utf8Size = 1 := rfl
  rcases hp : s.place with _ | ⟨l, seen⟩ | ⟨p, l, o, d, seen⟩ <;> simp [semicolon, St.size, Place.size, hp, h] <;> omega

theorem size_keep_le (line : Nat) (c : Char) (p : Place) : (p.keep line c).size ≤ p.size + c.utf8Size := by
  rcases p with _ | ⟨l, seen⟩ | ⟨p, l, o, d, seen⟩ <;> simp only [Place.keep]
  · split <;> simp [Place.size]
  · simp [Place.size]; omega
  · simp [Place.size]; omega

theorem size_step_le (s : St) (c : Char) : (step s c).size ≤ s.size + c.utf8Size := by
  show (act s c).size ≤ _
  have hc : 0 < c.utf8Size := Char.utf8Size_pos c
  unfold act
  split
  · exact Nat.le_trans (size_openBrace_le s) (by omega)
  split
  · exact Nat.le_trans (size_closeBrace_le s) (by omega)
  split
  · exact Nat.le_trans (size_semicolon_le s) (by omega)
  · have := size_keep_le s.line c s.place
    simp only [St.size]
    omega

theorem size_run_le (s : St) (t : Text) : (run s t).size ≤ s.size + Text.byteSize t := by
  induction t generalizing s with
  | nil => simp [run]
  | cons c t ih =>
    have h := ih (step s c)
    have h' := size_step_le s c
    rw [show run s (c :: t) = run (step s c) t from rfl, Text.byteSize_cons]
    omega

theorem size_le_sum {b : Block} {bs : List Block} (h : b ∈ bs) : b.size ≤ sizes bs := by
  induction bs with
  | nil => cases h
  | cons a bs ih =>
    rcases List.mem_cons.1 h with rfl | h
    · simp
    · have := ih h
      simp only [sizes_cons]
      omega

/-- a block with its braces is no larger than the text it was found in -/
theorem block_size_le {line : Nat} {t : Text} {b : Block} (hb : b ∈ (scan line t).blocks) :
    b.size ≤ Text.byteSize t := by
  have h : (run (start line) t).size ≤ Text.byteSize t := by
    simpa [start, St.size, Place.size] using size_run_le (start line) t
  have hb' : b ∈ (run (start line) t).blocks := by simpa [scan, St.finish] using hb
  have := size_le_sum hb'
  unfold St.size at h
  omega

end Block

end StyleCheck
