/-
Rendered rules are read again as they were.

Rendered rules are items with a line feed behind them: the prelude of an item is the selector of its rule and a space,
its body is the body of the rule, line by line (`Rule.item`). Clean rules give well-formed items without cut literals
and comment openers, so `parseAt_items` reads them, and the rules it finds differ in the layout of their bodies only.
- `toCss_eq`: rules as they are rendered are items;
- `wellFormed_item`, `uncommented_item`, `uncut_item`: the items of clean rules;
- `parse_toCss`: what rendered clean rules are read as;
- `parse_toCss_merge`: what a merge of parsed texts is read as after rendering.
-/
import StyleCheck.Proofs.Parse.Clean

namespace StyleCheck

open Quoting Text

namespace Rule

/-! ## Rules as items -/

/-- a rule as it is rendered behind `lead` -/
def item (lead : Text) (r : Rule) : Item :=
  .block (lead ++ r.selector ++ [' ']) (indent ++ tidy r.body ++ ['\n'])

/-- rules as they are rendered behind `lead`: a line feed ends each rule, and another one comes before the next -/
def items (lead : Text) : List Rule → List Item
  | [] => []
  | r :: rs => r.item lead :: items ['\n', '\n'] rs

theorem indented_lines {ls : List Text} (h : ls ≠ []) :
    '\n' :: ls.flatMap (fun l => "    ".toList ++ l ++ ['\n']) = indent ++ indent.intercalate ls ++ ['\n'] := by
  induction ls with
  | nil => exact absurd rfl h
  | cons l ls ih =>
    cases ls with
    | nil => simp [indent]
    | cons l' ls =>
      rw [List.flatMap_cons, List.intercalate_cons_cons]
      have ih := ih (by simp)
      simp only [List.append_assoc, List.cons_append, List.nil_append] at ih ⊢
      rw [ih]
      simp [indent]

/-- a rule with a visible body is rendered as its item -/
theorem append_render {r : Rule} (h : tidy r.body ≠ []) (lead : Text) : lead ++ r.render = (item lead r).text := by
  have hls : bodyLines r.body ≠ [] := fun hn => h (by rw [tidy, hn]; rfl)
  have hl := indented_lines hls
  unfold render item Item.text tidy
  rw [← hl]
  simp

theorem append_toCss_cons {r : Rule} {rs : List Rule} (h : ∀ x ∈ r :: rs, tidy x.body ≠ []) (lead : Text) :
    lead ++ toCss (r :: rs) = Item.texts (items lead (r :: rs)) ++ ['\n'] := by
  induction rs generalizing r lead with
  | nil =>
    rw [items, items, Item.texts, List.flatMap_singleton, ← append_render (h r List.mem_cons_self)]
    simp [toCss]
  | cons r' rs ih =>
    have ih := ih (fun x hx => h x (List.mem_cons_of_mem _ hx)) ['\n', '\n']
    rw [items, Item.texts, List.flatMap_cons, ← append_render (h r List.mem_cons_self), List.append_assoc, ← Item.texts,
      ← ih]
    simp [toCss]

/-- **Rules as they are rendered are items**, with blanks behind them. -/
theorem toCss_eq {rules : List Rule} (h : ∀ r ∈ rules, tidy r.body ≠ []) :
    ∃ g, AsciiBlank g ∧ toCss rules = Item.texts (items [] rules) ++ g := by
  cases rules with
  | nil => exact ⟨[], by decide, rfl⟩
  | cons r rs => exact ⟨['\n'], by decide, append_toCss_cons h []⟩

theorem mem_items {lead : Text} (hl : AsciiBlank lead) {rules : List Rule} {i : Item}
    (hi : i ∈ items lead rules) : ∃ r ∈ rules, ∃ lead, AsciiBlank lead ∧ i = r.item lead := by
  induction rules generalizing lead with
  | nil => cases hi
  | cons r rs ih =>
    rcases List.mem_cons.1 hi with rfl | hi
    · exact ⟨r, List.mem_cons_self, lead, hl, rfl⟩
    · obtain ⟨r', hr', lead', hl', rfl⟩ := ih (by decide) hi
      exact ⟨r', List.mem_cons_of_mem _ hr', lead', hl', rfl⟩

/-- a rule is rendered by its selector and the lines of its body -/
theorem toCss_congr {a b : List Rule}
    (h : a.map (fun r => (r.selector, bodyLines r.body)) = b.map fun r => (r.selector, bodyLines r.body)) :
    toCss a = toCss b := by
  have hw := congrArg (List.map fun p : Text × List Text =>
    p.1 ++ [' ', '{', '\n'] ++ p.2.flatMap (fun l => "    ".toList ++ l ++ ['\n']) ++ ['}'] ++ ['\n']) h
  rw [List.map_map, List.map_map] at hw
  exact congrArg (['\n'].intercalate ·) hw

end Rule

/-! ## The items of clean rules -/

theorem CleanSelector.prelude {s : Text} (h : CleanSelector s) {lead : Text} (hl : Blank lead) :
    Block.IsPrelude (lead ++ s ++ [' ']) ∧ code.marks (lead ++ s ++ [' ']) = [] ∧
      code.Uncommented (lead ++ s ++ [' ']) := by
  have he : Blank [' '] := by decide
  obtain ⟨hr, hm, hu⟩ := read_between h.closed h.uncommented hl he (by simp)
  rw [h.unmarked] at hm
  exact ⟨⟨by rw [hm]; simp, hr⟩, hm, hu⟩

/-- a clean body between its first indentation and the line feed before its brace is a body -/
theorem CleanBody.body {b : Text} (h : CleanBody b) :
    Block.IsBody (Rule.indent ++ b ++ ['\n']) ∧ .cut ∉ code.marks (Rule.indent ++ b ++ ['\n']) ∧
      code.Uncommented (Rule.indent ++ b ++ ['\n']) := by
  have hi : Blank Rule.indent := by decide
  have he : Blank ['\n'] := by decide
  obtain ⟨hr, hm, hu⟩ := read_between h.closed h.uncommented hi he (by simp)
  rw [hm]
  exact ⟨⟨by rw [hm, h.balanced], hr⟩, h.uncut, hu⟩

section
variable {config : ParseConfig} {r : Rule} (h : CleanRule config.themeAttribute r) {lead : Text}
  (hl : AsciiBlank lead)
include h hl

theorem wellFormed_item : (r.item lead).WellFormed :=
  ⟨(h.selector.prelude hl.blank).1, h.body.tidy.body.1⟩

theorem uncommented_item : code.Uncommented (r.item lead).text := by
  obtain ⟨hp, -, hup⟩ := h.selector.prelude hl.blank
  obtain ⟨hb, -, hub⟩ := h.body.tidy.body
  exact Item.uncommented_block hp hb hup hub

theorem uncut_item : .cut ∉ code.marks (r.item lead).text := by
  obtain ⟨hp, hm, -⟩ := h.selector.prelude hl.blank
  obtain ⟨hb, hcut, -⟩ := h.body.tidy.body
  show .cut ∉ code.marks (lead ++ r.selector ++ [' '] ++ '{' :: (Rule.indent ++ Rule.tidy r.body ++ ['\n']) ++ ['}'])
  rw [Item.marks_block hp hb, hm]
  simpa using hcut

/-- the item of a clean rule has a rule with its selector and kind, and its body as it is rendered -/
theorem exists_toRule? (source : SourceId) (line : Nat) :
    ∃ b r', (r.item lead).block? line = some b ∧ b.toRule? config source 0 = some r' ∧
      r'.selector = r.selector ∧ r'.kind = r.kind ∧ r'.body = Rule.tidy r.body := by
  have hs : Selector.normalize (lead ++ r.selector ++ [' ']) = r.selector := by
    rw [List.append_assoc, Selector.normalize_append hl.blank,
      Selector.normalize_concat_blank _ (by decide), h.selector.normal]
  have hb : trim (Rule.indent ++ Rule.tidy r.body ++ ['\n']) = Rule.tidy r.body := by
    rw [append_trim _ (by decide), trim_append (by decide), trim_eq_self_iff.2 (Rule.tight_tidy r.body)]
  obtain ⟨b, r', hblock, hrule, hrs, hrb, hrk⟩ := Stylesheet.toRule?_item config source
    (hs ▸ h.selector.visible) (hb ▸ h.body.tidy.visible) line
  exact ⟨b, r', hblock, hrule, hrs.trans hs, by rw [hrk, hs, h.kind], hrb.trans hb⟩

end

/-! ## Reading rendered rules -/

section
variable {config : ParseConfig} {rules : List Rule} (h : ∀ r ∈ rules, CleanRule config.themeAttribute r)
include h

theorem rulesOf_items (source : SourceId) (line : Nat) (lead : Text) (hl : AsciiBlank lead) :
    (Stylesheet.rulesOf config source (Item.blocks line (Rule.items lead rules))).map
        (fun r => (r.selector, r.kind, r.body)) = rules.map (fun r => (r.selector, r.kind, Rule.tidy r.body)) ∧
      Stylesheet.blanks config source (Item.blocks line (Rule.items lead rules)) = 0 := by
  induction rules generalizing line lead with
  | nil => exact ⟨rfl, rfl⟩
  | cons r rs ih =>
    obtain ⟨b, r', hb, hr', hs, hk, hbody⟩ := exists_toRule? (h r List.mem_cons_self) hl source line
    obtain ⟨ihr, ihb⟩ := ih (fun x hx => h x (List.mem_cons_of_mem _ hx)) (line + newlines (r.item lead).text)
      ['\n', '\n'] (by decide)
    have hblocks : Item.blocks line (Rule.items lead (r :: rs)) =
        b :: Item.blocks (line + newlines (r.item lead).text) (Rule.items ['\n', '\n'] rs) := by
      rw [Rule.items, Item.blocks, hb]
      rfl
    rw [hblocks]
    constructor
    · rw [Stylesheet.rulesOf, List.filterMap_cons_some hr', List.map_cons, ← Stylesheet.rulesOf, ihr, List.map_cons, hs,
        hk, hbody]
    · rw [Stylesheet.blanks, List.countP_cons, ← Stylesheet.blanks, ihb, hr']
      rfl

end

/-- **What rendered clean rules are read as.** -/
theorem parse_toCss (config : ParseConfig) {rules : List Rule} (h : ∀ r ∈ rules, CleanRule config.themeAttribute r)
    (hsize : byteSize (Rule.toCss rules) ≤ config.maxInputSize) (source : SourceId) :
    let again := Stylesheet.parse config source (Rule.toCss rules)
    again.rules.map (fun r => (r.selector, r.kind, r.body)) =
      rules.map (fun r => (r.selector, r.kind, Rule.tidy r.body)) ∧
    again.issues = [] ∧ again.fault = none ∧ again.stats.dropped = 0 ∧ again.stats.statements = 0 := by
  obtain ⟨g, hg, hcss⟩ := Rule.toCss_eq fun r hr => (h r hr).body.tidy.visible
  have hitem : ∀ i ∈ Rule.items [] rules, ∃ r ∈ rules, ∃ lead, AsciiBlank lead ∧ i = r.item lead :=
    fun i hi => Rule.mem_items (by decide) hi
  have hwf : ∀ i ∈ Rule.items [] rules, i.WellFormed ∧ code.Uncommented i.text := by
    intro i hi
    obtain ⟨r, hr, lead, hl, rfl⟩ := hitem i hi
    exact ⟨wellFormed_item (h r hr) hl, uncommented_item (h r hr) hl⟩
  have hcut : .cut ∉ code.marks (Item.texts (Rule.items [] rules)) := by
    rw [Item.marks_texts fun i hi => (hwf i hi).1, List.mem_flatMap]
    rintro ⟨i, hi, hm⟩
    obtain ⟨r, hr, lead, hl, rfl⟩ := hitem i hi
    exact uncut_item (h r hr) hl hm
  have hstatements : (Rule.items [] rules).countP Item.isStatement = 0 := by
    rw [List.countP_eq_zero]
    intro i hi
    obtain ⟨r, -, lead, -, rfl⟩ := hitem i hi
    simp [Rule.item, Item.isStatement]
  obtain ⟨hr, hb⟩ := rulesOf_items h source 1 [] (by decide)
  rw [hcss] at hsize ⊢
  obtain ⟨hrules, hissues, hfault, hdropped, hstats⟩ := Stylesheet.parseAt_items source (fun i hi => (hwf i hi).1) hg
    (Item.uncommented_texts hwf hg) hsize 1
  refine ⟨?_, ?_, hfault, ?_, ?_⟩
  · unfold Stylesheet.parse
    rw [hrules, Stylesheet.map_numbered _ (fun _ _ => rfl), hr]
  · exact hissues.trans (cuts_eq_nil hcut 1)
  · exact hdropped.trans hb
  · exact hstats.trans hstatements

/-! ## Merges -/

/-- **A merge is read again as it was rendered.** Take texts without cut literals in which removing comments twice is
removing them once, and render the merge of their rules. With a limit that is large enough, reading it gives the
selectors and kinds of the merge in order, each body with its lines trimmed, the blank ones left out and the others
indented, and nothing else; and rendering what was read gives the same text. -/
theorem parse_toCss_merge (config : ParseConfig) (inputs : List (SourceId × Text)) (source : SourceId) (limit : Nat)
    (hstrings : ∀ i ∈ inputs, ∀ issue ∈ (Stylesheet.parse config i.1 i.2).issues, issue.kind ≠ .unterminatedString)
    (hstrip : ∀ i ∈ inputs, Comment.strip (Comment.strip i.2) = Comment.strip i.2)
    (hlimit : byteSize (Cascade.merge (inputs.map fun i => (Stylesheet.parse config i.1 i.2).rules)).toCss ≤ limit) :
    let merged := Cascade.merge (inputs.map fun i => (Stylesheet.parse config i.1 i.2).rules)
    let again := Stylesheet.parse { config with maxInputSize := limit } source merged.toCss
    again.fault = none ∧ again.issues = [] ∧ again.stats.dropped = 0 ∧ again.stats.statements = 0 ∧
    again.rules.map (·.selector) = merged.rules.map (·.selector) ∧
    again.rules.map (·.kind) = merged.rules.map (·.kind) ∧
    again.rules.map (·.body) = merged.rules.map (fun r => Rule.tidy r.body) ∧
    Rule.toCss again.rules = merged.toCss := by
  intro merged again
  have hclean : ∀ r ∈ merged.rules, CleanRule config.themeAttribute r := by
    intro r hr
    refine clean_of_mem_merge ?_ hr
    intro l hl r hr
    obtain ⟨i, hi, rfl⟩ := List.mem_map.1 hl
    exact clean_of_mem_parse (hstrings i hi) (hstrip i hi) hr
  obtain ⟨hrules, hissues, hfault, hdropped, hstatements⟩ :=
    parse_toCss { config with maxInputSize := limit } hclean hlimit source
  have hs := congrArg (List.map (·.1)) hrules
  have hk := congrArg (List.map (·.2.1)) hrules
  have hb := congrArg (List.map (·.2.2)) hrules
  have hlines := congrArg (List.map fun p : Text × RuleKind × Text => (p.1, Rule.bodyLines p.2.2)) hrules
  rw [List.map_map, List.map_map] at hs hk hb hlines
  -- rendering sees the lines of a body only, and those of a rendered body are the same
  refine ⟨hfault, hissues, hdropped, hstatements, hs, hk, hb, Rule.toCss_congr (hlines.trans ?_)⟩
  exact List.map_congr_left fun r _ => by simp [Rule.bodyLines_tidy]

/-- two texts for one selector, with literals, escapes and a comment, and a block of blocks -/
def twoTexts : List (SourceId × Text) :=
  [(⟨0⟩, ".a   > b\x7b /* x */ c: \"\x7d\\\"\";\n\n   d: e \x7d@media  print\x7b\n .a\x7bc: d\x7d\n\x7d".toList),
    (⟨1⟩, ".a >\tb \x7b\n\n  content: '\x7b /*';\n  d: \\\n f; \x7d".toList)]

theorem parse_toCss_merge_two :
    let config : ParseConfig := {}
    let merged := Cascade.merge (twoTexts.map fun i => (Stylesheet.parse config i.1 i.2).rules)
    let again := Stylesheet.parse { config with maxInputSize := 100 } ⟨2⟩ merged.toCss
    (∀ i ∈ twoTexts, ∀ issue ∈ (Stylesheet.parse config i.1 i.2).issues, issue.kind ≠ .unterminatedString) ∧
    (∀ i ∈ twoTexts, Comment.strip (Comment.strip i.2) = Comment.strip i.2) ∧
    byteSize merged.toCss ≤ 100 ∧
    merged.rules.map (·.selector) = [".a > b".toList, "@media print".toList] ∧
    again.fault = none ∧ again.issues = [] ∧ again.stats.dropped = 0 ∧ again.stats.statements = 0 ∧
    again.rules.map (·.selector) = merged.rules.map (·.selector) ∧
    again.rules.map (·.kind) = merged.rules.map (·.kind) ∧
    again.rules.map (·.body) = merged.rules.map (fun r => Rule.tidy r.body) ∧
    again.rules.map (·.body) = ["content: '\x7b /*';\n    d: \\\n    f;".toList, ".a\x7bc: d\x7d".toList] ∧
    Rule.toCss again.rules = merged.toCss := by
  intro config
  have hstrings : ∀ i ∈ twoTexts, ∀ issue ∈ (Stylesheet.parse config i.1 i.2).issues,
      issue.kind ≠ .unterminatedString := by decide +kernel
  have hstrip : ∀ i ∈ twoTexts, Comment.strip (Comment.strip i.2) = Comment.strip i.2 := by decide +kernel
  have hlimit :
      byteSize (Cascade.merge (twoTexts.map fun i => (Stylesheet.parse config i.1 i.2).rules)).toCss ≤ 100 := by
    decide +kernel
  obtain ⟨hfault, hissues, hdropped, hstatements, hselectors, hkinds, hbodies, hcss⟩ :=
    parse_toCss_merge config twoTexts ⟨2⟩ 100 hstrings hstrip hlimit
  exact ⟨hstrings, hstrip, hlimit, by decide +kernel, hfault, hissues, hdropped, hstatements, hselectors, hkinds, hbodies,
    hbodies.trans (by decide +kernel), hcss⟩

end StyleCheck
