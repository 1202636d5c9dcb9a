/-
The rules of a parse, said in terms of its blocks.

Gathering turns every block with a visible selector and body into a rule, in order, and numbers the rules; the other
blocks are counted. So the rules of a parse are those of its blocks, numbered from 0 (`parseAt_of_size`), and what a
sequence of items is parsed as can be read off the items (`parseAt_items`).
-/
import StyleCheck.Stylesheet
import StyleCheck.Proofs.Parse.Comments
import StyleCheck.Proofs.Parse.Items

namespace StyleCheck.Stylesheet

open Quoting Text

variable (config : ParseConfig) (source : SourceId)

/-- rules numbered one after the other, from `n` on -/
def numbered (n : Nat) (rules : List Rule) : List Rule := rules.mapIdx fun i r => { r with position := n + i }

def rulesOf (blocks : List Block) : List Rule := blocks.filterMap (·.toRule? config source 0)

/-- the number of blocks without a visible selector or body -/
def blanks (blocks : List Block) : Nat := blocks.countP fun b => (b.toRule? config source 0).isNone

theorem numbered_cons (n : Nat) (r : Rule) (rules : List Rule) :
    numbered n (r :: rules) = { r with position := n } :: numbered (n + 1) rules := by
  unfold numbered
  rw [List.mapIdx_cons]
  simp only [Nat.add_zero, Nat.add_assoc, Nat.add_comm 1]

theorem map_numbered {α : Type} (f : Rule → α) (hf : ∀ (r : Rule) (n : Nat), f { r with position := n } = f r)
    (n : Nat) (rules : List Rule) : (numbered n rules).map f = rules.map f := by
  induction rules generalizing n with
  | nil => rfl
  | cons r rules ih => rw [numbered_cons, List.map_cons, List.map_cons, hf, ih]

/-- whether a block has a rule, and which one, does not depend on its number -/
theorem toRule?_position (n : Nat) (b : Block) :
    b.toRule? config source n = (b.toRule? config source 0).map fun r => { r with position := n } := by
  unfold Block.toRule?
  simp only
  split <;> rfl

/-- the rule of a block with a visible selector and body -/
theorem toRule?_of_visible {n : Nat} {b : Block} (hs : Selector.normalize b.prelude ≠ []) (hb : trim b.body ≠ []) :
    b.toRule? config source n = some
      { selector := Selector.normalize b.prelude
        body := trim b.body
        source
        position := n
        kind := Selector.kind config.themeAttribute (Selector.normalize b.prelude)
        line := b.line
        bodyLine := b.openLine + newlines (b.body.takeWhile isBlank) } := by
  unfold Block.toRule?
  simp [hs, hb]

/-- the block of an item has a rule if its selector and its body are visible, whatever blanks are around them -/
theorem toRule?_item {p b : Text} (hs : Selector.normalize p ≠ []) (hb : trim b ≠ []) (line : Nat) :
    ∃ found r, (Item.block p b).block? line = some found ∧ found.toRule? config source 0 = some r ∧
      r.selector = Selector.normalize p ∧ r.body = trim b ∧
      r.kind = Selector.kind config.themeAttribute (Selector.normalize p) := by
  rw [← Item.normalize_dropWhile] at hs ⊢
  exact ⟨_, _, rfl, toRule?_of_visible config source hs hb, rfl, rfl, rfl⟩

theorem of_toRule? {config : ParseConfig} {source : SourceId} {n : Nat} {b : Block} {r : Rule}
    (h : b.toRule? config source n = some r) :
    r.selector = Selector.normalize b.prelude ∧ r.selector ≠ [] ∧ r.body = trim b.body ∧ r.body ≠ [] ∧
      r.kind = Selector.kind config.themeAttribute r.selector := by
  unfold Block.toRule? at h
  simp only at h
  split at h
  · cases h
  · rename_i hv
    cases h
    simpa using hv

theorem total_count (s : Stats) (k : RuleKind) : (s.count k).total = s.total + 1 := by
  cases k <;> simp only [Stats.count, Stats.total] <;> omega

theorem dropped_count (s : Stats) (k : RuleKind) : (s.count k).dropped = s.dropped := by cases k <;> rfl

theorem statements_count (s : Stats) (k : RuleKind) : (s.count k).statements = s.statements := by cases k <;> rfl

section
variable {config source} {g : Gathered} {b : Block}

theorem gather_none (h : b.toRule? config source 0 = none) :
    gather config source g b = ⟨g.rules, { g.stats with dropped := g.stats.dropped + 1 }⟩ := by
  unfold gather
  rw [toRule?_position, h]
  rfl

theorem gather_some {r : Rule} (h : b.toRule? config source 0 = some r) :
    gather config source g b = ⟨{ r with position := g.stats.total } :: g.rules, g.stats.count r.kind⟩ := by
  unfold gather
  rw [toRule?_position, h]
  rfl

end

/-- **Gathering numbers the rules of the blocks and counts the other blocks.** -/
theorem gather_blocks (blocks : List Block) (g : Gathered) :
    let done := blocks.foldl (gather config source) g
    done.rules = (numbered g.stats.total (rulesOf config source blocks)).reverse ++ g.rules ∧
    done.stats.dropped = g.stats.dropped + blanks config source blocks ∧
    done.stats.statements = g.stats.statements := by
  induction blocks generalizing g with
  | nil => exact ⟨rfl, rfl, rfl⟩
  | cons b blocks ih =>
    rw [List.foldl_cons]
    obtain ⟨hr, hd, hs⟩ := ih (gather config source g b)
    cases hb : b.toRule? config source 0 with
    | none =>
      have hrules : rulesOf config source (b :: blocks) = rulesOf config source blocks := List.filterMap_cons_none hb
      have hblanks : blanks config source (b :: blocks) = blanks config source blocks + 1 := by simp [blanks, hb]
      rw [gather_none hb] at hr hd hs ⊢
      refine ⟨?_, ?_, hs⟩
      · rw [hr, hrules]
        rfl
      · rw [hd, hblanks]
        exact Nat.add_right_comm _ _ _
    | some r =>
      have hrules : rulesOf config source (b :: blocks) = r :: rulesOf config source blocks :=
        List.filterMap_cons_some hb
      have hblanks : blanks config source (b :: blocks) = blanks config source blocks := by simp [blanks, hb]
      rw [gather_some hb] at hr hd hs ⊢
      refine ⟨?_, ?_, ?_⟩
      · rw [hr, hrules, numbered_cons, total_count]
        simp
      · rw [hd, hblanks, dropped_count]
      · rw [hs, statements_count]

/-- a text within the limit is read -/
theorem parseAt_of_size {config : ParseConfig} (line : Nat) {text : Text}
    (hsize : byteSize text ≤ config.maxInputSize) :
    let found := Block.scan line (Comment.run (Comment.start line) text).text
    (parseAt config source line text).rules = numbered 0 (rulesOf config source found.blocks) ∧
    (parseAt config source line text).issues = (Comment.run (Comment.start line) text).issues ++ found.issues ∧
    (parseAt config source line text).fault = found.fault ∧
    (parseAt config source line text).stats.dropped = blanks config source found.blocks ∧
    (parseAt config source line text).stats.statements = found.statements := by
  intro found
  obtain ⟨hr, hd, hs⟩ := gather_blocks config source found.blocks ⟨[], { statements := found.statements }⟩
  unfold parseAt
  rw [if_neg (by omega)]
  refine ⟨?_, rfl, rfl, ?_, hs⟩
  · simpa [Stats.total] using congrArg List.reverse hr
  · simpa using hd

/-- **What a well-formed stylesheet without comments is parsed as**, with ASCII blanks behind it. -/
theorem parseAt_items {config : ParseConfig} {items : List Item} (h : ∀ i ∈ items, i.WellFormed) {g : Text}
    (hg : AsciiBlank g) (hu : code.Uncommented (Item.texts items ++ g))
    (hsize : byteSize (Item.texts items ++ g) ≤ config.maxInputSize) (line : Nat) :
    let s := parseAt config source line (Item.texts items ++ g)
    s.rules = numbered 0 (rulesOf config source (Item.blocks line items)) ∧
    s.issues = cuts line code (Item.texts items) ∧
    s.fault = none ∧
    s.stats.dropped = blanks config source (Item.blocks line items) ∧
    s.stats.statements = items.countP Item.isStatement := by
  obtain ⟨ht, hi⟩ := Comment.run_start_uncommented hu line
  have hp := parseAt_of_size source line hsize
  rw [ht, hi, Item.scan_items h hg] at hp
  exact hp

end StyleCheck.Stylesheet
