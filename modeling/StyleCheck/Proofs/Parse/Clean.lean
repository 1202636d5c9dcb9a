/-
Rules that can be written and read again.

The rules of a text without cut literals and without comment openers carry over what their blocks were: a selector makes
no marks and opens no comment, a body is balanced and opens none, and neither ends inside a literal. A merge keeps this,
since it exchanges whole selectors and whole bodies, and so does the rendering of a body.
- `clean_of_mem_parse`: every rule of such a text is clean;
- `clean_of_mem_merge`: every rule of a merge of clean rules is clean;
- `CleanBody.tidy`: a clean body is clean as it is rendered.
-/
import StyleCheck.Proofs.Cascade.Settled
import StyleCheck.Proofs.Parse.Lexing
import StyleCheck.Proofs.Parse.Rules

namespace StyleCheck

open Quoting Text

/-- a selector in normal form that is read as a prelude -/
structure CleanSelector (s : Text) : Prop where
  visible : s ≠ []
  normal : Selector.normalize s = s
  unmarked : code.marks s = []
  closed : (code.run s).quote = none
  uncommented : code.Uncommented s

/-- a trimmed text that is read as a body -/
structure CleanBody (b : Text) : Prop where
  visible : b ≠ []
  tight : Tight b
  balanced : Mark.depth? 0 (code.marks b) = some 0
  uncut : .cut ∉ code.marks b
  closed : (code.run b).quote = none
  uncommented : code.Uncommented b

/-- a rule that is read again as it is written -/
structure CleanRule (attr : Text) (r : Rule) : Prop where
  selector : CleanSelector r.selector
  body : CleanBody r.body
  kind : r.kind = Selector.kind attr r.selector

/-! ## Normal forms and trimmed bodies -/

theorem cleanSelector_normalize {p : Text} (hp : Block.IsPrelude p) (hcut : .cut ∉ code.marks p)
    (hu : code.Uncommented p) (hv : Selector.normalize p ≠ []) : CleanSelector (Selector.normalize p) := by
  have hr := retouched_normalize p
  obtain ⟨hm, hq⟩ := retouched_marks hr hcut
  have hbare : code.marks p = [] := by
    rw [List.eq_nil_iff_forall_not_mem]
    intro m hmem
    exact hcut (hp.bare m hmem ▸ hmem)
  exact ⟨hv, Selector.normalize_normalize p, hm.trans hbare, hq.trans (congrArg Quoting.quote hp.closed),
    retouched_uncommented hr hcut hu⟩

theorem cleanBody_trim {b : Text} (hb : Block.IsBody b) (hcut : .cut ∉ code.marks b) (hu : code.Uncommented b)
    (hv : trim b ≠ []) : CleanBody (trim b) := by
  have hr := retouched_trim b
  obtain ⟨hm, hq⟩ := retouched_marks hr hcut
  exact ⟨hv, tight_trim b, by rw [hm, hb.balanced], by rwa [hm], hq.trans (congrArg Quoting.quote hb.closed),
    retouched_uncommented hr hcut hu⟩

theorem tidy_ne_nil {b : Text} (hv : b ≠ []) (ht : Tight b) : Rule.tidy b ≠ [] := by
  intro h
  have hb : Blank b := (Rule.retouched_tidy b).blank h
  rw [← trimStart_eq_nil_iff, trimStart_eq_self_iff.2 ht.first] at hb
  exact hv hb

theorem CleanBody.tidy {b : Text} (h : CleanBody b) : CleanBody (Rule.tidy b) := by
  have hr := Rule.retouched_tidy b
  obtain ⟨hm, hq⟩ := retouched_marks hr h.uncut
  exact ⟨tidy_ne_nil h.visible h.tight, Rule.tight_tidy b, by rw [hm, h.balanced], by rw [hm]; exact h.uncut,
    by rw [hq, h.closed], retouched_uncommented hr h.uncut h.uncommented⟩

/-! ## Parsed and merged rules -/

theorem mem_rules_parseAt {config : ParseConfig} {source : SourceId} {line : Nat} {text : Text} {r : Rule}
    (h : r ∈ (Stylesheet.parseAt config source line text).rules) :
    ∃ b ∈ (Block.scan line (Comment.run (Comment.start line) text).text).blocks, ∃ n,
      b.toRule? config source n = some r := by
  unfold Stylesheet.parseAt at h
  split at h
  · simp at h
  · simp only [List.mem_reverse] at h
    exact (Stylesheet.mem_gather h).resolve_left (by simp)

/-- a stylesheet that some text is parsed as -/
def Stylesheet.IsParsed (s : Stylesheet) : Prop := ∃ config source line text, s = parseAt config source line text

theorem Stylesheet.isParsed_parse (config : ParseConfig) (source : SourceId) (text : Text) :
    (parse config source text).IsParsed := ⟨config, source, 1, text, rfl⟩

theorem Stylesheet.isParsed_pair {a b : Stylesheet} (ha : a.IsParsed) (hb : b.IsParsed) : ∀ s ∈ [a, b], s.IsParsed := by
  intro s hs
  rcases List.mem_pair.1 hs with rfl | rfl
  · exact ha
  · exact hb

/-- what a parse makes sure of -/
structure Rule.Parsed (r : Rule) : Prop where
  selector : r.selector ≠ []
  body : r.body ≠ []
  kind : ∃ attr, r.kind = Selector.kind attr r.selector

theorem Stylesheet.IsParsed.rule {s : Stylesheet} (h : s.IsParsed) {r : Rule} (hr : r ∈ s.rules) : r.Parsed := by
  obtain ⟨config, source, line, text, rfl⟩ := h
  obtain ⟨b, -, n, hn⟩ := mem_rules_parseAt hr
  obtain ⟨-, hs, -, hb, hk⟩ := of_toRule? hn
  exact ⟨hs, hb, config.themeAttribute, hk⟩

theorem mem_issues_parseAt {config : ParseConfig} {source : SourceId} {line : Nat} {text : Text} {i : Issue}
    (hsize : byteSize text ≤ config.maxInputSize)
    (h : i ∈ (Block.scan line (Comment.run (Comment.start line) text).text).issues) :
    i ∈ (Stylesheet.parseAt config source line text).issues := by
  rw [(Stylesheet.parseAt_of_size source line hsize).2.1]
  exact List.mem_append_right _ h

theorem size_of_mem_parseAt {config : ParseConfig} {source : SourceId} {line : Nat} {text : Text} {r : Rule}
    (h : r ∈ (Stylesheet.parseAt config source line text).rules) : byteSize text ≤ config.maxInputSize := by
  unfold Stylesheet.parseAt at h
  split at h
  · simp at h
  · omega

/-- the rule of a parse is that of a block, which stands in what is kept of the text -/
theorem found_of_mem_parseAt {config : ParseConfig} {source : SourceId} {line : Nat} {text : Text} {r : Rule}
    (hr : r ∈ (Stylesheet.parseAt config source line text).rules) :
    ∃ b ∈ (Block.scan line (Comment.strip text)).blocks, ∃ n, b.toRule? config source n = some r ∧
      Block.FoundIn (Comment.strip text) b := by
  obtain ⟨b, hb, n, hn⟩ := mem_rules_parseAt hr
  rw [Comment.text_start] at hb
  exact ⟨b, hb, n, hn, Block.mem_scan hb⟩

/-- no literal is cut where no issue reports one -/
theorem uncut_of_issues_parseAt {config : ParseConfig} {source : SourceId} {line : Nat} {text : Text}
    (hstring : ∀ i ∈ (Stylesheet.parseAt config source line text).issues, i.kind ≠ .unterminatedString)
    (hsize : byteSize text ≤ config.maxInputSize) : .cut ∉ code.marks (Comment.strip text) := by
  have hscan : ∀ i ∈ (Block.scan line (Comment.strip text)).issues, i.kind ≠ .unterminatedString := by
    intro i hi
    refine hstring i (mem_issues_parseAt hsize ?_)
    rwa [Comment.text_start]
  exact Block.uncut_of_issues hscan

/-- a rule of a text without cut literals is that of a block without cut literals -/
theorem found_of_mem_parse {config : ParseConfig} {source : SourceId} {text : Text} {r : Rule}
    (hstring : ∀ i ∈ (Stylesheet.parse config source text).issues, i.kind ≠ .unterminatedString)
    (hr : r ∈ (Stylesheet.parse config source text).rules) :
    ∃ b n, b.toRule? config source n = some r ∧ Block.FoundIn (Comment.strip text) b ∧
      .cut ∉ code.marks b.prelude ∧ .cut ∉ code.marks b.body := by
  obtain ⟨b, -, n, hn, hfound⟩ := found_of_mem_parseAt hr
  exact ⟨b, n, hn, hfound, hfound.uncut (uncut_of_issues_parseAt hstring (size_of_mem_parseAt hr))⟩

/-- **Every rule of a text is clean**, if no issue reports a cut literal and removing comments twice is removing them
once. -/
theorem clean_of_mem_parse {config : ParseConfig} {source : SourceId} {text : Text} {r : Rule}
    (hstring : ∀ i ∈ (Stylesheet.parse config source text).issues, i.kind ≠ .unterminatedString)
    (hstrip : Comment.strip (Comment.strip text) = Comment.strip text)
    (hr : r ∈ (Stylesheet.parse config source text).rules) : CleanRule config.themeAttribute r := by
  obtain ⟨b, n, hn, hfound, hcutP, hcutB⟩ := found_of_mem_parse hstring hr
  have hu : code.Uncommented (Comment.strip text) := Comment.strip_eq_self_iff.1 hstrip
  obtain ⟨huP, huB⟩ := hfound.uncommented hu
  obtain ⟨hs, hsv, hbody, hbv, hk⟩ := Stylesheet.of_toRule? hn
  refine ⟨?_, ?_, hk⟩
  · rw [hs] at hsv ⊢
    exact cleanSelector_normalize hfound.prelude hcutP huP hsv
  · rw [hbody] at hbv ⊢
    exact cleanBody_trim hfound.body hcutB huB hbv

/-- **A merge of clean rules is clean.** -/
theorem clean_of_mem_merge {attr : Text} {layers : List (List Rule)} (h : ∀ l ∈ layers, ∀ r ∈ l, CleanRule attr r)
    {r : Rule} (hr : r ∈ (Cascade.merge layers).rules) : CleanRule attr r := by
  have hf : ∀ r ∈ layers.flatten, CleanRule attr r := by
    intro r hr
    obtain ⟨l, hl, hr⟩ := List.mem_flatten.1 hr
    exact h l hl r hr
  obtain ⟨⟨f, hfm, hs, hk⟩, l, hlm, hb⟩ := Cascade.mem_merge hr
  refine ⟨?_, ?_, ?_⟩
  · rw [hs]
    exact (hf f hfm).selector
  · rw [hb]
    exact (hf l hlm).body
  · rw [hk, hs]
    exact (hf f hfm).kind

end StyleCheck
