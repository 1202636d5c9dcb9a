/-
Parsing two texts one after the other.

Wherever a text is cut, the rules of the part before the cut are the first rules of the whole text (`rules_prefix`). If
that part has no fault and ends neither in a comment nor in text that opened no block, the rest is parsed as it would be
alone, and what it gives comes further down (`parse_append`). `Rule.Later` says what further down means for a rule: the
line of its selector is left out, since a selector may begin in blanks before the cut.
-/
import StyleCheck.Proofs.Parse.Continuation
import StyleCheck.Proofs.Parse.Lexing
import StyleCheck.Proofs.Parse.Rules

namespace StyleCheck

open Quoting Text

/-- the same rule, `n` lines and `k` rules later, but for the line of its selector -/
structure Rule.Later (n k : Nat) (r r' : Rule) : Prop where
  selector : r.selector = r'.selector
  body : r.body = r'.body
  source : r.source = r'.source
  position : r.position = r'.position + k
  kind : r.kind = r'.kind
  bodyLine : r.bodyLine = r'.bodyLine + n

namespace Stylesheet

variable (config : ParseConfig) (source : SourceId)

/-- a text within the limit is read without its comments -/
theorem parseAt_strip {config : ParseConfig} (line : Nat) {text : Text}
    (hsize : byteSize text ≤ config.maxInputSize) :
    let found := Block.scan line (Comment.strip text)
    (parseAt config source line text).rules = numbered 0 (rulesOf config source found.blocks) ∧
    (parseAt config source line text).issues = (Comment.run (Comment.start line) text).issues ++ found.issues ∧
    (parseAt config source line text).fault = found.fault ∧
    (parseAt config source line text).stats.dropped = blanks config source found.blocks := by
  obtain ⟨hr, hi, hf, hd, -⟩ := parseAt_of_size source line hsize
  rw [Comment.text_start] at hr hi hf hd
  exact ⟨hr, hi, hf, hd⟩

/-! ## Numbers -/

theorem numbered_append (n : Nat) (a b : List Rule) :
    numbered n (a ++ b) = numbered n a ++ numbered (n + a.length) b := by
  induction a generalizing n with
  | nil => rfl
  | cons r a ih =>
    rw [List.cons_append, numbered_cons, numbered_cons, ih, List.cons_append, List.length_cons, Nat.add_right_comm,
      Nat.add_assoc]

theorem length_numbered (n : Nat) (rules : List Rule) : (numbered n rules).length = rules.length := List.length_mapIdx

/-! ## Rules of blocks further down -/

section
variable {n : Nat}

theorem toRule?_later {b b' : Block} (h : b.Later n b') :
    (b.toRule? config source 0 = none ∧ b'.toRule? config source 0 = none) ∨
      ∃ r r', b.toRule? config source 0 = some r ∧ b'.toRule? config source 0 = some r' ∧ r.Later n 0 r' := by
  obtain ⟨⟨g, hg, hp⟩, hb, ho⟩ := h
  have hs : Selector.normalize b.prelude = Selector.normalize b'.prelude := by rw [hp, Selector.normalize_append hg]
  unfold Block.toRule?
  simp only [hs, hb, ho]
  split
  · exact Or.inl ⟨rfl, rfl⟩
  · exact Or.inr ⟨_, _, rfl, rfl, rfl, rfl, rfl, rfl, rfl, Nat.add_right_comm _ _ _⟩

theorem rulesOf_later {bs bs' : List Block} (h : List.Forall₂ (Block.Later n) bs bs') :
    List.Forall₂ (Rule.Later n 0) (rulesOf config source bs) (rulesOf config source bs') ∧
      blanks config source bs = blanks config source bs' := by
  induction h with
  | nil => exact ⟨.nil, rfl⟩
  | @cons b b' bs bs' hb _ ih =>
    obtain ⟨ihr, ihb⟩ := ih
    unfold rulesOf at ihr ⊢
    unfold blanks at ihb ⊢
    rw [List.countP_cons, List.countP_cons, ihb]
    rcases toRule?_later config source hb with ⟨h, h'⟩ | ⟨r, r', h, h', hr⟩
    · rw [List.filterMap_cons_none h, List.filterMap_cons_none h', h, h']
      exact ⟨ihr, rfl⟩
    · rw [List.filterMap_cons_some h, List.filterMap_cons_some h', h, h']
      exact ⟨.cons hr ihr, rfl⟩

theorem numbered_later {rs rs' : List Rule} (h : List.Forall₂ (Rule.Later n 0) rs rs') (m k : Nat) :
    List.Forall₂ (Rule.Later n k) (numbered (m + k) rs) (numbered m rs') := by
  induction h generalizing m with
  | nil => exact .nil
  | cons hr _ ih =>
    rw [numbered_cons, numbered_cons, Nat.add_right_comm]
    exact .cons ⟨hr.selector, hr.body, hr.source, rfl, hr.kind, hr.bodyLine⟩ (ih (m + 1))

end

/-! ## A text that is cut -/

/-- **Cutting a text leaves the rules closed before the cut as they are**, wherever it falls: they come first in the
whole text. -/
theorem rules_prefix {a b : Text} (hsize : byteSize (a ++ b) ≤ config.maxInputSize) :
    (parse config source a).rules <+: (parse config source (a ++ b)).rules := by
  have hblocks : (Block.scan 1 (Comment.strip a)).blocks <+: (Block.scan 1 (Comment.strip (a ++ b))).blocks := by
    obtain ⟨v, w, hv, hw⟩ := Comment.strip_prefix a b
    have ha : (Block.scan 1 (Comment.strip a)).blocks = (Block.scan 1 v).blocks := by
      rcases hv with hv | hv <;> rw [hv]
      -- the slash of a comment opener that is cut in two opens and closes no block
      exact Block.blocks_append_of_not_mem 1 v (by decide)
    rw [ha, hw]
    exact Block.blocks_prefix 1 v w
  have ha : byteSize a ≤ config.maxInputSize := by
    rw [byteSize_append] at hsize
    omega
  unfold parse
  rw [(parseAt_strip source 1 ha).1, (parseAt_strip source 1 hsize).1]
  obtain ⟨more, hmore⟩ := hblocks.filterMap (fun b : Block => b.toRule? config source 0)
  unfold rulesOf
  rw [← hmore, numbered_append]
  exact List.prefix_append _ _

/-- a cut through a comment opener -/
theorem rules_prefix_opener :
    let a := ".a\x7b b: c \x7d\n.d\x7b e: '\x7d' \x7d /".toList
    let b := "* \x7d */ .f\x7b g".toList
    byteSize (a ++ b) ≤ ({} : ParseConfig).maxInputSize ∧
    (parse {} ⟨0⟩ a).rules.map (·.body) = ["b: c".toList, "e: '\x7d'".toList] ∧
    (parse {} ⟨0⟩ a).rules <+: (parse {} ⟨0⟩ (a ++ b)).rules := by
  intro a b
  have hsize : byteSize (a ++ b) ≤ ({} : ParseConfig).maxInputSize := by decide +kernel
  exact ⟨hsize, by decide +kernel, rules_prefix {} ⟨0⟩ hsize⟩

/-! ## Two texts -/

/-- **A text without an open comment, a fault or trailing content ends in plain text.** -/
theorem place_of_closed {a : Text} (hcomment : (Comment.run (Comment.start 1) a).issues = [])
    (hfault : (Block.scan 1 (Comment.strip a)).fault = none)
    (htrail : ∀ i ∈ (Block.scan 1 (Comment.strip a)).issues, i.kind ≠ .trailingContent) :
    (Comment.run (Comment.start 1) a).place = .text code := by
  have hlater := Block.later_of_finish (n := newlines (Comment.strip a)) hfault htrail rfl
  have hquoting : (Comment.run (Comment.start 1) a).place.quoting = code := by
    rw [← Comment.quoting_strip, ← (Block.holds_run 1 _).quoting]
    exact hlater.quoting
  rcases Comment.place_of_issues hcomment with ⟨q, hq⟩ | hslash
  · rw [hq] at hquoting ⊢
    exact congrArg _ hquoting
  · -- a slash held back is visible, so it would have begun a prelude
    have hstrip : Comment.strip a = (Comment.run (Comment.start 1) a).kept.reverse ++ ['/'] := by
      simp [Comment.strip, Comment.St.text, hslash, Comment.Place.held]
    have hplace := hlater.place
    rw [hstrip, Block.run_append] at hplace
    change (Block.step _ '/').place.Later _ _ at hplace
    rw [Block.place_step (by simp [Mark.ofChar?, isCutBy])] at hplace
    exact absurd hplace (Block.not_later_keep _ _ (by decide))

/-- **Texts are parsed one after the other.** Behind a text without a fault, trailing content and an open comment, any
text gives the rules that it gives alone, further down, and drops the same blocks; and the fault of the whole is its
fault, further down. -/
theorem parse_append {a b : Text} (hfault : (parse config source a).fault = none)
    (hissues : ∀ i ∈ (parse config source a).issues, i.kind ≠ .trailingContent ∧ i.kind ≠ .unterminatedComment)
    (hsize : byteSize (a ++ b) ≤ config.maxInputSize) :
    let first := parse config source a
    let rest := parse config source b
    let whole := parse config source (a ++ b)
    (∃ later, whole.rules = first.rules ++ later ∧
      List.Forall₂ (Rule.Later (newlines a) first.rules.length) later rest.rules) ∧
    whole.stats.dropped = first.stats.dropped + rest.stats.dropped ∧
    whole.fault = rest.fault.map (Fault.later (newlines a)) := by
  intro first rest whole
  have hsizes : byteSize a ≤ config.maxInputSize ∧ byteSize b ≤ config.maxInputSize := by
    rw [byteSize_append] at hsize
    omega
  obtain ⟨har, hai, haf, had⟩ := parseAt_strip source 1 hsizes.1
  obtain ⟨hbr, -, hbf, hbd⟩ := parseAt_strip source 1 hsizes.2
  obtain ⟨hwr, -, hwf, hwd⟩ := parseAt_strip source 1 hsize
  have hcomment : (Comment.run (Comment.start 1) a).issues = [] := by
    refine Comment.issues_eq_nil fun i hi => (hissues i ?_).2
    exact hai ▸ List.mem_append_left _ hi
  have hfound : (Block.scan 1 (Comment.strip a)).fault = none := haf ▸ hfault
  have htrail : ∀ i ∈ (Block.scan 1 (Comment.strip a)).issues, i.kind ≠ .trailingContent := by
    refine fun i hi => (hissues i ?_).1
    exact hai ▸ List.mem_append_right _ hi
  have hlater : (Block.run (Block.start 1) (Comment.strip a)).Later (newlines a) _ (Block.start 1) :=
    Block.later_of_finish hfound htrail (by rw [Comment.newlines_strip])
  obtain ⟨⟨found, hblocks, hrest⟩, hwhole⟩ := Block.scan_append hlater (Comment.strip b)
  rw [← Comment.strip_append (place_of_closed hcomment hfound htrail)] at hblocks hwhole
  have hblocks : (Block.scan 1 (Comment.strip (a ++ b))).blocks = (Block.scan 1 (Comment.strip a)).blocks ++ found :=
    hblocks
  obtain ⟨hrules, hblanks⟩ := rulesOf_later config source hrest
  have hlength : first.rules.length = (rulesOf config source (Block.scan 1 (Comment.strip a)).blocks).length :=
    (congrArg List.length har).trans (length_numbered 0 _)
  refine ⟨⟨numbered first.rules.length (rulesOf config source found), ?_, ?_⟩, ?_, ?_⟩
  · refine hwr.trans ?_
    rw [hblocks, rulesOf, List.filterMap_append, numbered_append, Nat.zero_add, hlength]
    exact congrArg (· ++ _) har.symm
  · have h := numbered_later hrules 0 first.rules.length
    rw [Nat.zero_add] at h
    exact hbr ▸ h
  · refine hwd.trans ?_
    rw [hblocks, blanks, List.countP_append]
    exact (congrArg₂ (· + ·) had (hbd.trans hblanks.symm)).symm
  · exact hwf.trans (hwhole.trans (congrArg _ hbf.symm))

/-- a stray brace, a cut literal, a closed comment, a statement and a blank that begins a prelude -/
def closedText : Text := "\x7d .a\x7b b: 'c\n\x7d /* ' */ @d;\x0b".toList

/-- a rule and a block that is left open -/
def openText : Text := ".e \x7b f: g \x7d\n.h \x7b i: j".toList

theorem parse_append_malformed :
    let first := parse {} ⟨0⟩ closedText
    let rest := parse {} ⟨0⟩ openText
    let whole := parse {} ⟨0⟩ (closedText ++ openText)
    first.fault = none ∧ (∀ i ∈ first.issues, i.kind ≠ .trailingContent ∧ i.kind ≠ .unterminatedComment) ∧
    byteSize (closedText ++ openText) ≤ ({} : ParseConfig).maxInputSize ∧
    newlines closedText = 1 ∧ first.rules.length = 1 ∧ rest.rules.length = 1 ∧
    rest.fault = some (.unterminatedBlock 2 1) ∧
    (∃ later, whole.rules = first.rules ++ later ∧
      List.Forall₂ (Rule.Later (newlines closedText) first.rules.length) later rest.rules) ∧
    whole.stats.dropped = first.stats.dropped + rest.stats.dropped ∧
    whole.fault = rest.fault.map (Fault.later (newlines closedText)) := by
  intro first rest whole
  have hfault : first.fault = none := by decide +kernel
  have hissues : ∀ i ∈ first.issues, i.kind ≠ .trailingContent ∧ i.kind ≠ .unterminatedComment := by decide +kernel
  have hsize : byteSize (closedText ++ openText) ≤ ({} : ParseConfig).maxInputSize := by decide +kernel
  exact ⟨hfault, hissues, hsize, by decide +kernel, by decide +kernel, by decide +kernel, by decide +kernel,
    parse_append {} ⟨0⟩ hfault hissues hsize⟩

end Stylesheet

end StyleCheck
