/-
Declarations of a rule body.

A body is cut into segments at semicolons and braces outside string literals, escapes and parentheses, so that neither
`url(a;b)` nor a nested block splits a value; the last segment needs no semicolon. A segment is a declaration if it has
a colon and what stands before the first one is a name.
-/
import StyleCheck.Parse.Quoting

namespace StyleCheck

/-- one `property: value` pair -/
structure Declaration where
  property : Text
  /-- trimmed -/
  value : Text
  /-- where the property begins in the body, in bytes -/
  offset : Nat
  deriving DecidableEq, Repr

namespace Declaration

open Text

/-- the machine that cuts a body; lists are last element first -/
structure St where
  quoting : Quoting
  /-- parentheses open -/
  depth : Nat
  /-- bytes read -/
  read : Nat
  /-- where the current segment begins -/
  begun : Nat
  seen : Text
  segments : List (Nat × Text)
  deriving DecidableEq, Repr

def start : St := ⟨.code, 0, 0, 0, [], []⟩

/-- whether `c` ends a segment -/
def St.isEnd (s : St) (c : Char) : Bool :=
  s.quoting.isCode && s.depth == 0 && (c == ';' || c == '{' || c == '}')

/-- parentheses open after `c` -/
def St.depthAfter (s : St) (c : Char) : Nat :=
  if s.quoting.isCode ∧ c = '(' then s.depth + 1
  else if s.quoting.isCode ∧ c = ')' then s.depth - 1
  else s.depth

/-- one character -/
def step (s : St) (c : Char) : St :=
  if s.isEnd c then
    { s with
      read := s.read + c.utf8Size
      begun := s.read + c.utf8Size
      seen := []
      segments := (s.begun, s.seen.reverse) :: s.segments }
  else
    { s with
      quoting := s.quoting.next c
      depth := s.depthAfter c
      read := s.read + c.utf8Size
      seen := c :: s.seen }

/-- the segments of a body, each with where it begins -/
def segments (body : Text) : List (Nat × Text) :=
  let s := body.foldl step start
  ((s.begun, s.seen.reverse) :: s.segments).reverse

/-- the declaration in a segment that begins at `begun` -/
def ofSegment? (begun : Nat) (segment : Text) : Option Declaration := do
  let (before, value) ← cut? ':' segment
  let property := trim before
  if isName property then
    some { property, value := trim value, offset := begun + byteSize (before.takeWhile isBlank) }
  else none

/-- the declarations of a body, in order -/
def ofBody (body : Text) : List Declaration := (segments body).filterMap fun (begun, t) => ofSegment? begun t

/-- property in lower case and without its vendor; custom properties have none -/
def unprefixed (property : Text) : Text :=
  let p := lower property
  if "--".toList.isPrefixOf p then p else (dropVendor? p).getD p

/-- whether `--name` is declared -/
def isCustom (property : Text) : Bool := "--".toList.isPrefixOf property && 2 < property.length

end Declaration

end StyleCheck
