/-
Parsed stylesheets.

Parsing never fails: the rules of every block closed before a fault are kept, with the fault and the issues beside them.
A block without a visible selector or body is counted and dropped.

Main statement: `nested_body_lt`, the rules inside a rule's body have smaller bodies, so descending into blocks ends.
-/
import StyleCheck.Parse.Comment
import StyleCheck.Parse.Block
import StyleCheck.Rule

namespace StyleCheck

/-- limits and conventions of a parse -/
structure ParseConfig where
  /-- largest text accepted, in bytes -/
  maxInputSize : Nat := 52428800
  themeAttribute : Text := Selector.defaultThemeAttribute
  deriving DecidableEq, Repr

/-- what a parse counted -/
structure Stats where
  plain : Nat := 0
  media : Nat := 0
  keyframes : Nat := 0
  theme : Nat := 0
  /-- blocks without a selector or a body -/
  dropped : Nat := 0
  statements : Nat := 0
  deriving DecidableEq, Repr

namespace Stats

def total (s : Stats) : Nat := s.plain + s.media + s.keyframes + s.theme

/-- one more rule of a kind -/
def count (s : Stats) : RuleKind → Stats
  | .plain => { s with plain := s.plain + 1 }
  | .media => { s with media := s.media + 1 }
  | .keyframes => { s with keyframes := s.keyframes + 1 }
  | .theme => { s with theme := s.theme + 1 }

end Stats

/-- everything one parse of one source gives -/
structure Stylesheet where
  source : SourceId
  /-- in document order -/
  rules : List Rule
  /-- those of comments first, then those of blocks -/
  issues : List Issue
  fault : Option Fault
  stats : Stats
  deriving DecidableEq, Repr

/-- the rule of a block, if it has a visible selector and body -/
def Block.toRule? (config : ParseConfig) (source : SourceId) (position : Nat) (b : Block) : Option Rule :=
  let selector := Selector.normalize b.prelude
  let body := Text.trim b.body
  if selector.isEmpty || body.isEmpty then none
  else some {
    selector
    body
    source
    position
    kind := Selector.kind config.themeAttribute selector
    line := b.line
    bodyLine := b.openLine + Text.newlines (b.body.takeWhile Text.isBlank) }

namespace Stylesheet

/-- rules and counts gathered so far, the last rule first -/
structure Gathered where
  rules : List Rule
  stats : Stats
  deriving DecidableEq, Repr

/-- one more block -/
def gather (config : ParseConfig) (source : SourceId) (g : Gathered) (b : Block) : Gathered :=
  match b.toRule? config source g.stats.total with
  | some r => ⟨r :: g.rules, g.stats.count r.kind⟩
  | none => { g with stats := { g.stats with dropped := g.stats.dropped + 1 } }

/-- parse a text whose first character is on line `line` -/
def parseAt (config : ParseConfig) (source : SourceId) (line : Nat) (text : Text) : Stylesheet :=
  if config.maxInputSize < Text.byteSize text then
    { source, rules := [], issues := [], stats := {}
      fault := some (.inputTooLarge (Text.byteSize text) config.maxInputSize) }
  else
    let comments := Comment.run (Comment.start line) text
    let found := Block.scan line comments.text
    let gathered := found.blocks.foldl (gather config source) ⟨[], { statements := found.statements }⟩
    { source
      rules := gathered.rules.reverse
      issues := comments.issues ++ found.issues
      fault := found.fault
      stats := gathered.stats }

/-- parse a whole text -/
def parse (config : ParseConfig) (source : SourceId) (text : Text) : Stylesheet := parseAt config source 1 text

/-- parse the body of a rule; inner rules keep its source and the lines of the whole text -/
def parseBody (config : ParseConfig) (r : Rule) : Stylesheet := parseAt config r.source r.bodyLine r.body

/-- whether rules may be missing -/
def isPartial (s : Stylesheet) : Bool := s.fault.isSome

def ofKind (s : Stylesheet) (k : RuleKind) : List Rule := s.rules.filter (·.kind = k)

theorem body_of_toRule? {config : ParseConfig} {source : SourceId} {n : Nat} {b : Block} {r : Rule}
    (h : b.toRule? config source n = some r) : r.body = Text.trim b.body := by
  unfold Block.toRule? at h
  simp only at h
  split at h
  · cases h
  · cases h; rfl

/-- every rule gathered is the rule of a block -/
theorem mem_gather {config : ParseConfig} {source : SourceId} {bs : List Block} {g : Gathered} {r : Rule}
    (h : r ∈ (bs.foldl (gather config source) g).rules) :
    r ∈ g.rules ∨ ∃ b ∈ bs, ∃ n, b.toRule? config source n = some r := by
  induction bs generalizing g with
  | nil => exact Or.inl h
  | cons b bs ih =>
    rcases ih h with h | ⟨b', hb', hn⟩
    · unfold gather at h
      split at h
      · rename_i r' hr'
        rcases List.mem_cons.1 h with rfl | h
        · exact Or.inr ⟨b, by simp, _, hr'⟩
        · exact Or.inl h
      · exact Or.inl h
    · exact Or.inr ⟨b', by simp [hb'], hn⟩

/-- the body of a rule is smaller than the text it was parsed from by its two braces at least -/
theorem body_size_of_mem_parseAt {config : ParseConfig} {source : SourceId} {line : Nat} {text : Text} {r : Rule}
    (h : r ∈ (parseAt config source line text).rules) : Text.byteSize r.body + 2 ≤ Text.byteSize text := by
  unfold parseAt at h
  split at h
  · simp at h
  · simp only [List.mem_reverse] at h
    rcases mem_gather h with h | ⟨b, hb, n, hn⟩
    · simp at h
    · have h1 := Block.block_size_le hb
      have h2 := Text.byteSize_le_of_sublist (Comment.text_sublist line text)
      have h3 := Text.byteSize_le_of_sublist (Text.trim_sublist b.body)
      rw [body_of_toRule? hn]
      unfold Block.size at h1
      omega

theorem nested_body_lt {config : ParseConfig} {r r' : Rule} (h : r' ∈ (parseBody config r).rules) :
    Text.byteSize r'.body < Text.byteSize r.body := by
  have := body_size_of_mem_parseAt h
  omega

end Stylesheet

end StyleCheck
