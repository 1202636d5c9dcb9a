/-
What every parse makes sure of.

Whatever a text holds, each of its rules has a visible selector in normal form and a visible, trimmed and balanced body,
is classified by its selector, and does not begin behind its body (`Rule.Canonical`). Where no literal was cut,
collapsing blanks changes no mark, so the selector holds no brace and no semicolon in code (`Bare`). Rules are numbered
by their positions, and the counts of a parse are those of its rules (`stats_parseAt`).

Main statement: `parseAt_canonical`, all of this for every text, with what a fault says about the braces left open.
-/
import StyleCheck.Proofs.Parse.Depth
import StyleCheck.Proofs.Parse.Recovery

namespace StyleCheck

open Quoting Text

/-- no brace and no semicolon of a text is read as code, if the text is read from code on -/
def Text.Inactive (t : Text) : Prop :=
  ∀ a c b, t = a ++ c :: b → (code.run a).isCode = true → c ≠ '{' ∧ c ≠ '}' ∧ c ≠ ';'

/-- a text without marks has none of the characters that would make one -/
theorem Text.inactive_of_marks {t : Text} (h : code.marks t = []) : t.Inactive := by
  rintro a c b rfl hcode
  rw [marks_append, marks_cons, List.append_eq_nil_iff, List.append_eq_nil_iff] at h
  have hmark : Mark.ofChar? (code.run a) c = none := by simpa using h.2.1
  refine ⟨?_, ?_, ?_⟩ <;> rintro rfl <;> simp [Mark.ofChar?, hcode] at hmark

/-! ## Lines -/

namespace Block

/-- what was begun began no later than the brace behind it, and neither is ahead of the reader -/
def Place.InOrder (line : Nat) : Place → Prop
  | .between => True
  | .before l _ => l ≤ line
  | .within _ l o _ _ => l ≤ o ∧ o ≤ line

/-- so it is for the place and for the blocks found -/
structure InOrder (s : St) : Prop where
  place : s.place.InOrder s.line
  blocks : ∀ b ∈ s.blocks, b.line ≤ b.openLine

theorem Place.InOrder.mono {p : Place} {line line' : Nat} (h : p.InOrder line) (hline : line ≤ line') :
    p.InOrder line' := by
  cases p with
  | between => trivial
  | before l seen => exact Nat.le_trans h hline
  | within p l o d seen => exact ⟨h.1, Nat.le_trans h.2 hline⟩

theorem inOrder_keep {p : Place} {line : Nat} (h : p.InOrder line) (c : Char) : (p.keep line c).InOrder line := by
  cases p with
  | between =>
    simp only [Place.keep]
    split
    · trivial
    · exact Nat.le_refl line
  | before l seen => exact h
  | within p l o d seen => exact h

/-- what one character does to the place and the blocks, before the line counts it -/
theorem inOrder_act {s : St} (h : InOrder s) (c : Char) :
    (act s c).place.InOrder s.line ∧ ∀ b ∈ (act s c).blocks, b.line ≤ b.openLine := by
  obtain ⟨hplace, hblocks⟩ := h
  rw [act_eq]
  cases Mark.ofChar? s.quoting c with
  | none => exact ⟨inOrder_keep hplace c, hblocks⟩
  | some m =>
    cases m with
    | opens =>
      refine ⟨?_, hblocks⟩
      simp only [openBrace]
      rcases hp : s.place with _ | ⟨l, seen⟩ | ⟨p, l, o, d, seen⟩ <;> rw [hp] at hplace
      · exact ⟨Nat.le_refl _, Nat.le_refl _⟩
      · exact ⟨hplace, Nat.le_refl _⟩
      · exact hplace
    | closes =>
      simp only [closeBrace]
      rcases hp : s.place with _ | ⟨l, seen⟩ | ⟨p, l, o, _ | d, seen⟩ <;> rw [hp] at hplace
      · exact ⟨trivial, hblocks⟩
      · exact ⟨trivial, hblocks⟩
      · exact ⟨trivial, List.forall_mem_cons.2 ⟨hplace.1, hblocks⟩⟩
      · exact ⟨hplace, hblocks⟩
    | ends =>
      simp only [semicolon]
      rcases hp : s.place with _ | ⟨l, seen⟩ | ⟨p, l, o, d, seen⟩ <;> simp only [hp] at hplace ⊢
      · exact ⟨hplace, hblocks⟩
      · exact ⟨trivial, hblocks⟩
      · exact ⟨hplace, hblocks⟩
    | cut => exact ⟨inOrder_keep hplace c, hblocks⟩

/-- **One character keeps the lines in order.** -/
theorem inOrder_step {s : St} (h : InOrder s) (c : Char) : InOrder (step s c) := by
  obtain ⟨hplace, hblocks⟩ := inOrder_act h c
  refine ⟨hplace.mono ?_, hblocks⟩
  have hline : (step s c).line = s.line + newlines [c] := line_next s.line c
  omega

/-- **So does every text.** -/
theorem inOrder_run {s : St} (h : InOrder s) (t : Text) : InOrder (run s t) := by
  induction t generalizing s with
  | nil => exact h
  | cons c t ih => exact ih (inOrder_step h c)

/-- a block begins no later than its brace -/
theorem line_le_openLine {line : Nat} {t : Text} {b : Block} (hb : b ∈ (scan line t).blocks) :
    b.line ≤ b.openLine := by
  have hstart : InOrder (start line) := ⟨trivial, by simp [start]⟩
  exact (inOrder_run hstart t).blocks b (List.mem_reverse.1 hb)

end Block

/-! ## Counts -/

/-- the count of the rules of a kind -/
def Stats.of (s : Stats) : RuleKind → Nat
  | .plain => s.plain
  | .media => s.media
  | .keyframes => s.keyframes
  | .theme => s.theme

theorem Stats.of_count (s : Stats) (k k' : RuleKind) : (s.count k).of k' = s.of k' + if k = k' then 1 else 0 := by
  cases k <;> cases k' <;> rfl

namespace Stylesheet

/-- **Gathering counts the rules of each kind.** -/
theorem stats_gather (config : ParseConfig) (source : SourceId) (blocks : List Block) (g : Gathered) (k : RuleKind) :
    (blocks.foldl (gather config source) g).stats.of k =
      g.stats.of k + (rulesOf config source blocks).countP (·.kind = k) := by
  induction blocks generalizing g with
  | nil => rfl
  | cons b blocks ih =>
    rw [List.foldl_cons, ih]
    cases hb : b.toRule? config source 0 with
    | none =>
      have hrules : rulesOf config source (b :: blocks) = rulesOf config source blocks := List.filterMap_cons_none hb
      rw [gather_none hb, hrules]
      cases k <;> rfl
    | some r =>
      have hrules : rulesOf config source (b :: blocks) = r :: rulesOf config source blocks :=
        List.filterMap_cons_some hb
      rw [gather_some hb, hrules, List.countP_cons, Stats.of_count]
      simp only [decide_eq_true_eq]
      omega

/-- the kinds share the rules among them -/
theorem length_kinds (rules : List Rule) :
    rules.countP (·.kind = .plain) + rules.countP (·.kind = .media) + rules.countP (·.kind = .keyframes) +
      rules.countP (·.kind = .theme) = rules.length := by
  induction rules with
  | nil => rfl
  | cons r rules ih =>
    simp only [List.countP_cons, List.length_cons, decide_eq_true_eq]
    cases r.kind <;> simp only [reduceCtorEq, if_true, if_false] <;> omega

/-- **The counts of a parse are those of its rules.** -/
theorem stats_parseAt (config : ParseConfig) (source : SourceId) (line : Nat) (text : Text) (k : RuleKind) :
    (parseAt config source line text).stats.of k = (parseAt config source line text).rules.countP (·.kind = k) := by
  by_cases hsize : byteSize text ≤ config.maxInputSize
  · have hkind := map_numbered Rule.kind (fun _ _ => rfl) 0 (rulesOf config source
      (Block.scan line (Comment.run (Comment.start line) text).text).blocks)
    have hcount := congrArg (List.countP fun k' => decide (k' = k)) hkind
    rw [List.countP_map, List.countP_map] at hcount
    rw [(parseAt_of_size source line hsize).1]
    refine Eq.trans ?_ hcount.symm
    unfold parseAt
    rw [if_neg (by omega)]
    refine (stats_gather config source _ _ k).trans ?_
    cases k <;> exact Nat.zero_add _
  · unfold parseAt
    rw [if_pos (by omega)]
    cases k <;> rfl

end Stylesheet

/-! ## Rules -/

/-- a rule as every parse gives it -/
structure Rule.Canonical (attr : Text) (r : Rule) : Prop where
  selector : r.selector ≠ []
  normal : Selector.normalize r.selector = r.selector
  body : r.body ≠ []
  trimmed : trim r.body = r.body
  balanced : Mark.depth? 0 (code.marks r.body) = some 0
  kind : r.kind = Selector.kind attr r.selector
  lines : r.line ≤ r.bodyLine

namespace Stylesheet

theorem line_of_toRule? {config : ParseConfig} {source : SourceId} {n : Nat} {b : Block} {r : Rule}
    (h : b.toRule? config source n = some r) : r.line = b.line := by
  unfold Block.toRule? at h
  simp only at h
  split at h
  · cases h
  · cases h; rfl

theorem canonical_of_mem_parseAt {config : ParseConfig} {source : SourceId} {line : Nat} {text : Text} {r : Rule}
    (h : r ∈ (parseAt config source line text).rules) : r.Canonical config.themeAttribute := by
  obtain ⟨b, hb, n, hn, hfound⟩ := found_of_mem_parseAt h
  obtain ⟨hs, hsv, hbody, hbv, hk⟩ := of_toRule? hn
  refine ⟨hsv, ?_, hbv, ?_, ?_, hk, ?_⟩
  · rw [hs, Selector.normalize_normalize]
  · rw [hbody, trim_trim]
  · rw [hbody]
    exact balanced_trim hfound.body
  · rw [line_of_toRule? hn, bodyLine_of_toRule? hn]
    exact Nat.le_trans (Block.line_le_openLine hb) (Nat.le_add_right _ _)

/-- **Where no literal was cut, a selector holds no brace and no semicolon in code**: collapsing its blanks changes no
mark. -/
theorem inactive_of_mem_parseAt {config : ParseConfig} {source : SourceId} {line : Nat} {text : Text} {r : Rule}
    (hstring : ∀ i ∈ (parseAt config source line text).issues, i.kind ≠ .unterminatedString)
    (h : r ∈ (parseAt config source line text).rules) : r.selector.Inactive := by
  obtain ⟨b, -, n, hn, hfound⟩ := found_of_mem_parseAt h
  obtain ⟨hcut, -⟩ := hfound.uncut (uncut_of_issues_parseAt hstring (size_of_mem_parseAt h))
  have hbare : code.marks b.prelude = [] :=
    List.eq_nil_iff_forall_not_mem.2 fun m hm => hcut (hfound.prelude.bare m hm ▸ hm)
  rw [(of_toRule? hn).1]
  exact inactive_of_marks ((retouched_marks (retouched_normalize b.prelude) hcut).1.trans hbare)

/-- **Every parse result is canonical.** Whatever the text holds and whichever line it begins on, its rules are
canonical and numbered by their positions; their selectors hold no brace and no semicolon in code, unless an issue
reports a cut literal; the counts are those of the rules; and a fault other than the size of the text is there exactly
if the text was read and ends deeper than it began. -/
theorem parseAt_canonical (config : ParseConfig) (source : SourceId) (line : Nat) (text : Text) :
    let s := parseAt config source line text
    (∀ r ∈ s.rules, r.Canonical config.themeAttribute) ∧
    ((∀ i ∈ s.issues, i.kind ≠ .unterminatedString) → ∀ r ∈ s.rules, r.selector.Inactive) ∧
    s.rules.map (·.position) = List.range s.rules.length ∧
    s.stats.plain = s.rules.countP (·.kind = .plain) ∧ s.stats.media = s.rules.countP (·.kind = .media) ∧
    s.stats.keyframes = s.rules.countP (·.kind = .keyframes) ∧ s.stats.theme = s.rules.countP (·.kind = .theme) ∧
    s.stats.plain + s.stats.media + s.stats.keyframes + s.stats.theme = s.rules.length ∧
    ((∃ l d, s.fault = some (.unterminatedBlock l d)) ↔ byteSize text ≤ config.maxInputSize ∧ 0 < depth text) := by
  intro s
  have hkinds := stats_parseAt config source line text
  refine ⟨fun r => canonical_of_mem_parseAt, fun hstring r => inactive_of_mem_parseAt hstring, ?_, hkinds .plain,
    hkinds .media, hkinds .keyframes, hkinds .theme, ?_, ?_⟩
  · by_cases hsize : byteSize text ≤ config.maxInputSize
    · have hrules : s.rules = _ := (parseAt_of_size source line hsize).1
      rw [hrules, positions_numbered, length_numbered, List.range_eq_range']
    · have hrules : s.rules = [] := by
        simp only [s, parseAt]
        rw [if_pos (by omega)]
      rw [hrules]
      rfl
  · exact (congrArg₂ (· + ·) (congrArg₂ (· + ·) (congrArg₂ (· + ·) (hkinds .plain) (hkinds .media))
      (hkinds .keyframes)) (hkinds .theme)).trans (length_kinds s.rules)
  · constructor
    · rintro ⟨l, d, h⟩
      obtain ⟨hsize, hpos, hd⟩ := (fault_parseAt_iff config source line d text).1 ⟨l, h⟩
      exact ⟨hsize, hd ▸ hpos⟩
    · rintro ⟨hsize, hpos⟩
      obtain ⟨l, h⟩ := (fault_parseAt_iff config source line (depth text) text).2 ⟨hsize, hpos, rfl⟩
      exact ⟨l, depth text, h⟩

/-- a hidden blank and a masked brace in a selector, a hidden blank at the end of a body, a stray brace, a group, and a
block that is left open -/
def escapedText : Text :=
  "\x7d a\\  > b[c=\"\x7b\"]\n\x7b d: '\x7d'\\ \x7d /*\n*/@media  e\x7b .f\x7bg: h\x7d \x7d\n.i\x7b".toList

theorem parseAt_canonical_escaped :
    let s := parseAt {} ⟨0⟩ 3 escapedText
    (∀ i ∈ s.issues, i.kind ≠ .unterminatedString) ∧
    s.rules.map (fun r => (r.selector, r.body)) =
      [("a\\ > b[c=\"\x7b\"]".toList, "d: '\x7d'\\".toList), ("@media e".toList, ".f\x7bg: h\x7d".toList)] ∧
    s.fault = some (.unterminatedBlock 6 1) ∧
    (∀ r ∈ s.rules, r.Canonical Selector.defaultThemeAttribute) ∧ (∀ r ∈ s.rules, r.selector.Inactive) ∧
    0 < depth escapedText := by
  intro s
  have hstring : ∀ i ∈ s.issues, i.kind ≠ .unterminatedString := by decide +kernel
  have hfault : s.fault = some (.unterminatedBlock 6 1) := by decide +kernel
  obtain ⟨hrules, hselectors, -, -, -, -, -, -, hdeep⟩ := parseAt_canonical {} ⟨0⟩ 3 escapedText
  exact ⟨hstring, by decide +kernel, hfault, hrules, hselectors hstring, (hdeep.1 ⟨6, 1, hfault⟩).2⟩

end Stylesheet

end StyleCheck
