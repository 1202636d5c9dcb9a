/-
Texts, as lists of characters.

Everything that is lexed is a list of characters, so a law about the concatenation of two texts is a law about `++`.
Sizes and offsets in bytes are measures on that list (`byteSize`), lines are counted by their line feeds (`newlines`).

Three classes of characters recur: blanks (Unicode White_Space, `isBlank`), name characters (`[A-Za-z0-9_-]`,
`isNameChar`) and identifier characters (name characters and everything beyond ASCII, `isIdentChar`).
-/
namespace StyleCheck

/-- a text is the list of its characters -/
abbrev Text := List Char

namespace Text

/-- White_Space of the Unicode character database -/
def isBlank (c : Char) : Bool :=
  let n := c.toNat
  (9 ≤ n && n ≤ 13) || n == 0x20 || n == 0x85 || n == 0xA0 || n == 0x1680 || (0x2000 ≤ n && n ≤ 0x200A) ||
    n == 0x2028 || n == 0x2029 || n == 0x202F || n == 0x205F || n == 0x3000

/-- space, tab, line feed, form feed and carriage return; the vertical tab is not among them -/
def isAsciiBlank (c : Char) : Bool :=
  c == ' ' || c == '\t' || c == '\n' || c == '\x0c' || c == '\r'

def isQuote (c : Char) : Bool := c == '"' || c == '\''

/-- `[A-Za-z0-9_-]` -/
def isNameChar (c : Char) : Bool := c.isAlphanum || c == '-' || c == '_'

/-- a name character, or any character beyond ASCII -/
def isIdentChar (c : Char) : Bool := isNameChar c || 0x80 ≤ c.toNat

/-- non-empty and over `[A-Za-z0-9_-]` -/
def isName (t : Text) : Bool := !t.isEmpty && t.all isNameChar

/-- ASCII letters in lower case; all other characters stay -/
def lower (t : Text) : Text := t.map Char.toLower

def trimStart (t : Text) : Text := t.dropWhile isBlank

def trimEnd (t : Text) : Text := (t.reverse.dropWhile isBlank).reverse

/-- `t` without the blanks at its two ends -/
def trim (t : Text) : Text := trimEnd (trimStart t)

/-- the maximal blank-free runs of `t`, in order -/
def words (t : Text) : List Text := (t.splitOnP isBlank).filter (!·.isEmpty)

/-- number of line feeds -/
def newlines (t : Text) : Nat := t.count '\n'

/-- size of the UTF-8 form -/
def byteSize (t : Text) : Nat := t.foldr (fun c n => c.utf8Size + n) 0

/-- number of line feeds that begin before a byte offset -/
def newlinesBefore : Nat → Text → Nat
  | _, [] => 0
  | offset, c :: t =>
    if offset = 0 then 0 else newlinesBefore (offset - c.utf8Size) t + if c = '\n' then 1 else 0

/-- line of the character at a byte offset, counted from 1; an offset past the end gives the last line -/
def lineAt (t : Text) (offset : Nat) : Nat := newlinesBefore offset t + 1

/-- the text before and the text after the first `c` -/
def cut? (c : Char) (t : Text) : Option (Text × Text) :=
  match t.dropWhile (· != c) with
  | [] => none
  | _ :: after => some (t.takeWhile (· != c), after)

/-- `t` without a leading `c` -/
def dropFirst? (c : Char) : Text → Option Text
  | [] => none
  | d :: t => if d = c then some t else none

/-- `t` without a last character that satisfies `p` -/
def dropLast? (p : Char → Bool) (t : Text) : Option Text :=
  match t.getLast? with
  | some c => if p c then some t.dropLast else none
  | none => none

/-- the inside of a text whose first and last character are two different places that both satisfy `p` -/
def inside? (p : Char → Bool) : Text → Option Text
  | [] => none
  | c :: t => if p c then dropLast? p t else none

/-- `t` without a pair of equal quotes around it, if it has one -/
def unquote (t : Text) : Text :=
  ((inside? (· == '"') t).or (inside? (· == '\'') t)).getD t

/-- `t` without a quote at either end, which need not be the same; a lone one stays -/
def unquoteLoosely (t : Text) : Text := (inside? isQuote t).getD t

/-- whether `part` occurs in `t` -/
def contains (part : Text) : Text → Bool
  | [] => part.isEmpty
  | c :: t => part.isPrefixOf (c :: t) || contains part t

/-- a name with its vendor removed: `transition` for `-moz-transition` -/
def dropVendor? (t : Text) : Option Text :=
  match (dropFirst? '-' t).bind (cut? '-') with
  | some (vendor, name) => if vendor.isEmpty then none else some name
  | none => none

@[simp] theorem newlines_nil : newlines [] = 0 := rfl

@[simp] theorem newlines_append (a b : Text) : newlines (a ++ b) = newlines a + newlines b := List.count_append

theorem newlines_cons (c : Char) (t : Text) : newlines (c :: t) = newlines [c] + newlines t :=
  newlines_append [c] t

@[simp] theorem byteSize_nil : byteSize [] = 0 := rfl

@[simp] theorem byteSize_cons (c : Char) (t : Text) : byteSize (c :: t) = c.utf8Size + byteSize t := rfl

@[simp] theorem byteSize_append (a b : Text) : byteSize (a ++ b) = byteSize a + byteSize b := by
  induction a with
  | nil => simp
  | cons c a ih => simp [ih, Nat.add_assoc]

@[simp] theorem byteSize_reverse (t : Text) : byteSize t.reverse = byteSize t := by
  induction t with
  | nil => rfl
  | cons c t ih => simp [ih, Nat.add_comm]

theorem byteSize_le_of_sublist {a b : Text} (h : a.Sublist b) : byteSize a ≤ byteSize b := by
  induction h with
  | slnil => exact Nat.le_refl _
  | cons c _ ih => simp; omega
  | cons_cons c _ ih => simp; omega

theorem trim_sublist (t : Text) : (trim t).Sublist t := by
  have h := (List.dropWhile_sublist (p := isBlank) (l := (trimStart t).reverse)).reverse
  rw [List.reverse_reverse] at h
  exact h.trans (List.dropWhile_sublist _)

end Text

end StyleCheck
