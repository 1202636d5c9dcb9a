/-
What can be wrong with a stylesheet.

An `Issue` is an oddity that was stepped over, a `Fault` is what cut the reading short. Both are causes; their wording
is in `message`, and how grave an issue is follows from its kind.
-/
namespace StyleCheck

/-- what the reader tripped over -/
inductive IssueKind where
  /-- a comment that runs to the end of the text -/
  | unterminatedComment
  /-- a string literal ended by a line feed -/
  | unterminatedString
  /-- a closing brace with no block open -/
  | strayCloseBrace
  /-- text after the last block that never opened one -/
  | trailingContent
  deriving DecidableEq, Repr

/-- how grave an issue is -/
inductive IssueLevel where
  | info
  | warning
  deriving DecidableEq, Repr

def IssueLevel.name : IssueLevel → String
  | .info => "info"
  | .warning => "warning"

namespace IssueKind

def level : IssueKind → IssueLevel
  | trailingContent => .info
  | _ => .warning

def message : IssueKind → String
  | unterminatedComment => "Unterminated comment runs to end of input"
  | unterminatedString => "String literal ended by newline"
  | strayCloseBrace => "Unmatched '\x7d' skipped"
  | trailingContent => "Trailing text without a block dropped"

end IssueKind

/-- an oddity and its line -/
structure Issue where
  kind : IssueKind
  line : Nat
  deriving DecidableEq, Repr

def Issue.describe (i : Issue) : String := s!"{i.kind.level.name} at line {i.line}: {i.kind.message}"

/-- what ended the reading before the end of the text -/
inductive Fault where
  /-- the text ends with `depth` open braces, the outermost of them on line `line` -/
  | unterminatedBlock (line depth : Nat)
  /-- the text is larger than the limit, both in bytes -/
  | inputTooLarge (size limit : Nat)
  deriving DecidableEq, Repr

def Fault.message : Fault → String
  | unterminatedBlock line depth =>
    s!"Unterminated block opened at line {line}: {depth} unclosed brace(s) at end of input"
  | inputTooLarge size limit => s!"Input size {size} bytes exceeds limit {limit} bytes"

end StyleCheck
