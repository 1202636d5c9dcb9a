/-
Emptied rules, from their text to the audit.

A merge warns of a rule without a body behind another one for its selector, and an audit reports all warnings of a
merge. But a parse drops a block without a visible body, so that no rule it gives lacks one. Where all layers were
parsed there is no warning, and the rule before an emptied one stays in force. An empty rule is reported if it is given
to the merge as it is.
- `no_override_of_parsed`: merges of parsed stylesheets are never reported;
- `Harmless.plain`, `Harmless.quiet`: texts without literals, escapes, braces and comment openers can stand before the
  brace of a block and inside it; `parse_block`: what such a block is parsed as;
- `merge_over_empty`: what a merge makes of an empty rule behind another one;
- `emptied_rule_audited`: both ways through parse, merge and audit.
-/
import Mathlib.Data.List.Infix
import StyleCheck.Proofs.Audit.Findings
import StyleCheck.Proofs.Cascade.Emptied
import StyleCheck.Proofs.Parse.Clean
import StyleCheck.Proofs.Parse.Plain
import StyleCheck.Proofs.Parse.Recovery

namespace StyleCheck

open Quoting Text

/-! ## Warnings in audits -/

namespace Audit

/-- an audit without settings reports what any check finds -/
theorem mem_audit_default (a : Analysis) (i : Issue) : i ∈ audit {} a ↔ ∃ k : Check, i ∈ k.issues a := by
  have hruns (k : Check) : Config.runs {} k = true := rfl
  have hreports (s : Severity) : Config.reports {} s = true := by cases s <;> rfl
  rw [audit_eq, upTo, if_pos rfl, findings, List.mem_flatMap]
  constructor
  · rintro ⟨k, -, hi⟩
    exact ⟨k, (List.mem_filter.1 hi).1⟩
  · rintro ⟨k, hi⟩
    have hk : k ∈ Check.all := by cases k <;> decide
    exact ⟨k, List.mem_filter.2 ⟨hk, hruns k⟩, List.mem_filter.2 ⟨hi, hreports i.severity⟩⟩

/-- without warnings of a merge, no override is reported -/
theorem no_override_of_warnings (config : Config) {a : Analysis} (h : a.mergeWarnings = []) :
    ∀ i ∈ audit config a, i.check ≠ .valuelessOverride := by
  intro i hi hcheck
  rw [audit_eq] at hi
  obtain ⟨k, -, hk⟩ := List.mem_flatMap.1 ((upTo_sublist _ _).subset hi)
  have hmem : i ∈ k.issues a := (List.mem_filter.1 hk).1
  obtain rfl : k = .valuelessOverride := (check_of_mem_issues a hmem).symm.trans hcheck
  unfold Check.issues valuelessOverrides at hmem
  rw [h] at hmem
  cases hmem

/-- an audit without settings reports every warning of a merge -/
theorem exists_override (a : Analysis) (m : Merged) {w : ValuelessOverride} (h : w ∈ m.warnings) :
    ∃ i ∈ audit {} (a.withMerge m), i.check = .valuelessOverride ∧ i.message = w.describe := by
  have hw : w ∈ (a.withMerge m).mergeWarnings := h
  exact ⟨_, (mem_audit_default _ _).2 ⟨.valuelessOverride, List.mem_map_of_mem hw⟩, rfl, rfl⟩

end Audit

theorem Cascade.warnings_of_parsed {sheets : List Stylesheet} (h : ∀ s ∈ sheets, s.IsParsed) :
    (merge (sheets.map (·.rules))).warnings = [] := by
  rw [warnings_merge]
  apply emptyings_of_visible
  intro r hr
  obtain ⟨rules, hrules, hr⟩ := List.mem_flatten.1 hr
  obtain ⟨s, hs, rfl⟩ := List.mem_map.1 hrules
  exact ((h s hs).rule hr).body

/-- **No override of parsed stylesheets is ever reported**, whatever the settings and the analysis. -/
theorem Audit.no_override_of_parsed (config : Config) (a : Analysis) {sheets : List Stylesheet}
    (h : ∀ s ∈ sheets, s.IsParsed) :
    ∀ i ∈ audit config (a.withMerge (Cascade.merge (sheets.map (·.rules)))), i.check ≠ .valuelessOverride :=
  no_override_of_warnings config (Cascade.warnings_of_parsed h)

/-! ## Texts of one block -/

/-- a text without literals, escapes, braces and comment openers -/
structure Harmless (t : Text) : Prop where
  chars : ∀ c ∈ t, isQuote c = false ∧ c ≠ '\\' ∧ c ≠ '{' ∧ c ≠ '}'
  opener : ¬['/', '*'] <:+: t

instance (t : Text) : Decidable (Harmless t) :=
  have : Decidable (∀ c ∈ t, isQuote c = false ∧ c ≠ '\\' ∧ c ≠ '{' ∧ c ≠ '}') := List.decidableBAll _ t
  decidable_of_iff (_ ∧ ¬['/', '*'] <:+: t) ⟨fun h => ⟨h.1, h.2⟩, fun h => ⟨h.chars, h.opener⟩⟩

namespace Harmless

variable {t : Text}

theorem tail {c : Char} (h : Harmless (c :: t)) : Harmless t :=
  ⟨fun d hd => h.chars d (List.mem_cons_of_mem c hd), fun hin => h.opener (hin.trans (List.suffix_cons c t).isInfix)⟩

theorem next_first {c : Char} (h : Harmless (c :: t)) : code.next c = code := by
  obtain ⟨hq, he, -, -⟩ := h.chars c List.mem_cons_self
  simp [next, code, he, hq]

theorem closed (h : Harmless t) : code.run t = code := by
  induction t with
  | nil => rfl
  | cons c t ih => rw [run_cons, h.next_first, ih h.tail]

theorem uncommented (h : Harmless t) : code.Uncommented t := by
  induction t with
  | nil => trivial
  | cons c t ih =>
    refine uncommented_cons.2 ⟨?_, ?_⟩
    · rintro ⟨-, rfl, hstar⟩
      obtain ⟨t, rfl⟩ := List.head?_eq_some_iff.1 hstar
      exact h.opener (List.prefix_append ['/', '*'] t).isInfix
    · rw [h.next_first]
      exact ih h.tail

/-- only semicolons leave a mark -/
theorem marks_eq (h : Harmless t) : ∀ m ∈ code.marks t, m = .ends ∧ ';' ∈ t := by
  induction t with
  | nil => exact nofun
  | cons c t ih =>
    obtain ⟨-, -, hopen, hclose⟩ := h.chars c List.mem_cons_self
    intro m hm
    rw [marks_cons, h.next_first] at hm
    rcases List.mem_append.1 hm with hm | hm
    · have hone : Mark.ofChar? code c = some m := Option.mem_toList.1 hm
      simp only [Mark.ofChar?, hopen, hclose, and_false, if_false] at hone
      split at hone
      · rename_i hend
        exact ⟨(Option.some.inj hone).symm, hend.2 ▸ List.mem_cons_self⟩
      · cases hone
    · obtain ⟨hends, hmem⟩ := ih h.tail m hm
      exact ⟨hends, List.mem_cons_of_mem c hmem⟩

theorem uncut (h : Harmless t) : .cut ∉ code.marks t := by
  intro hm
  cases (h.marks_eq _ hm).1

theorem balanced (h : Harmless t) : Mark.depth? 0 (code.marks t) = some 0 := by
  have hends := h.marks_eq
  generalize code.marks t = ms at hends ⊢
  induction ms with
  | nil => rfl
  | cons m ms ih =>
    obtain ⟨hm, hms⟩ := List.forall_mem_cons.1 hends
    rw [hm.1]
    exact ih hms

theorem closed_quote (h : Harmless t) : (code.run t).quote = none := by
  rw [h.closed]
  rfl

end Harmless

/-- a text that is read as a body without anything to report -/
structure Quiet (t : Text) : Prop where
  body : Block.IsBody t
  uncut : .cut ∉ code.marks t
  uncommented : code.Uncommented t

theorem Plain.quiet {t : Text} (h : Plain t) : Quiet t := ⟨h.isBody, by rw [h.unmarked]; exact nofun, h.uncommented⟩

theorem Harmless.quiet {t lead tail : Text} (h : Harmless t) (hlead : Blank lead) (htail : Blank tail)
    (hne : tail ≠ []) : Quiet (lead ++ t ++ tail) := by
  obtain ⟨hr, hm, hu⟩ := read_between h.closed_quote h.uncommented hlead htail hne
  exact ⟨⟨by rw [hm, h.balanced], hr⟩, by rw [hm]; exact h.uncut, hu⟩

/-- a harmless text without semicolons is plain, also with a space behind it -/
theorem Harmless.plain {t : Text} (h : Harmless t) (hend : ';' ∉ t) : Plain (t ++ [' ']) := by
  have hunmarked : code.marks t = [] := by
    apply List.eq_nil_iff_forall_not_mem.2
    intro m hm
    exact hend (h.marks_eq m hm).2
  have ht : Plain t := ⟨h.closed, hunmarked, h.uncommented⟩
  exact ht.join plain_nil (by decide) (by decide)

namespace Stylesheet

theorem source_of_mem_parse {config : ParseConfig} {source : SourceId} {text : Text} {r : Rule}
    (h : r ∈ (parse config source text).rules) : r.source = source := by
  obtain ⟨b, -, n, hn⟩ := mem_rules_parseAt h
  unfold Block.toRule? at hn
  simp only at hn
  split at hn
  · cases hn
  · cases hn
    rfl

/-- **What a text of one block is parsed as** -/
theorem parse_block (config : ParseConfig) (source : SourceId) {p b : Text} (hp : Plain p) (hb : Quiet b)
    (hsize : byteSize (Item.block p b).text ≤ config.maxInputSize) :
    let s := parse config source (Item.block p b).text
    s.rules.map (fun r => (r.selector, r.body)) = (Item.block p b).visible?.toList ∧
    s.issues = [] ∧ s.fault = none ∧ s.stats.dropped = if (Item.block p b).visible?.isNone then 1 else 0 := by
  intro s
  have hwell : (Item.block p b).WellFormed := ⟨hp.isPrelude, hb.body⟩
  have hcut : .cut ∉ code.marks (Item.block p b).text := by
    change .cut ∉ code.marks (p ++ '{' :: b ++ ['}'])
    rw [Item.marks_block hp.isPrelude hb.body, hp.unmarked]
    simpa using hb.uncut
  have hitems : ∀ i ∈ [Item.block p b], i.WellFormed ∧ code.Uncommented i.text := by
    intro i hi
    rw [List.mem_singleton.1 hi]
    exact ⟨hwell, Item.uncommented_block hp.isPrelude hb.body hp.uncommented hb.uncommented⟩
  have htext : Item.texts [Item.block p b] ++ [] = (Item.block p b).text := by simp [Item.texts]
  have hparse := parseAt_items source (fun i hi => (hitems i hi).1) (by decide : AsciiBlank [])
    (Item.uncommented_texts hitems (by decide)) (by rwa [htext]) 1
  rw [htext] at hparse
  obtain ⟨hrules, hissues, hfault, hdropped, -⟩ := hparse
  obtain ⟨hvisible, hhidden⟩ := Item.visible_blocks config source [Item.block p b] 1
  refine ⟨?_, hissues.trans ?_, hfault, hdropped.trans (hhidden.trans ?_)⟩
  · calc s.rules.map (fun r => (r.selector, r.body))
      _ = (rulesOf config source (Item.blocks 1 [.block p b])).map (fun r => (r.selector, r.body)) :=
        (congrArg _ hrules).trans (map_numbered _ (fun _ _ => rfl) 0 _)
      _ = [Item.block p b].filterMap Item.visible? := hvisible
      _ = (Item.block p b).visible?.toList := by cases h : (Item.block p b).visible? <;> simp [h]
  · rw [← List.append_nil (Item.texts _), htext, cuts_eq_nil hcut]
  · simp [Item.isHidden, Item.isStatement, List.countP_singleton]

end Stylesheet

/-! ## Merges of two rules -/

namespace Cascade

/-- what a merge makes of an empty rule behind another one for its selector -/
theorem merge_over_empty {r e : Rule} (hs : e.selector = r.selector) (hb : e.body = []) :
    (merge [[r], [e]]).rules.map (fun m => (m.selector, m.body)) = [(r.selector, [])] ∧
    (merge [[r], [e]]).warnings = [⟨r.selector, e.source, r.source⟩] := by
  constructor
  · rw [rules_merge]
    simp [absorb, hs, hb]
  · rw [warnings_merge]
    simp [emptyings, emptied?, last?, hs, hb]

end Cascade

/-! ## From text to audit -/

namespace Audit

/-- the text `s { b }` -/
def ruleText (s b : Text) : Text := s ++ [' ', '{', ' '] ++ b ++ [' ', '}']

/-- the text `s {w}` -/
def emptyText (s w : Text) : Text := s ++ [' ', '{'] ++ w ++ ['}']

section
variable (parsing : ParseConfig) (source : SourceId) {s b w : Text} (hnormal : Selector.normalize s = s)
  (hselector : Harmless s) (hend : ';' ∉ s)
include hnormal hselector hend

theorem parse_ruleText (hs : s ≠ []) (hb : Harmless b) (hvisible : trim b ≠ [])
    (hsize : byteSize (ruleText s b) ≤ parsing.maxInputSize) :
    ∃ r, (Stylesheet.parse parsing source (ruleText s b)).rules = [r] ∧ r.selector = s ∧ r.body = trim b ∧
      r.source = source := by
  have hspace : Blank [' '] := by decide
  have htext : ruleText s b = (Item.block (s ++ [' ']) ([' '] ++ b ++ [' '])).text := by simp [ruleText, Item.text]
  have hshown : (Item.block (s ++ [' ']) ([' '] ++ b ++ [' '])).visible? = some (s, trim b) := by
    rw [Item.visible?, Selector.normalize_concat_blank s (by decide), hnormal, append_trim _ hspace,
      trim_append hspace, if_neg (by simp [hs, hvisible])]
  rw [htext] at hsize ⊢
  obtain ⟨hrules, -⟩ := Stylesheet.parse_block parsing source (hselector.plain hend)
    (hb.quiet hspace hspace (by simp)) hsize
  rw [hshown, Option.toList_some, List.map_eq_singleton_iff] at hrules
  obtain ⟨r, hr, hpair⟩ := hrules
  obtain ⟨hrs, hrb⟩ := Prod.mk.inj hpair
  exact ⟨r, hr, hrs, hrb, Stylesheet.source_of_mem_parse (hr ▸ List.mem_singleton_self r)⟩

omit hnormal in
/-- a block of blanks is dropped without a word -/
theorem parse_emptyText (hw : Blank w) (hsize : byteSize (emptyText s w) ≤ parsing.maxInputSize) :
    let top := Stylesheet.parse parsing source (emptyText s w)
    top.rules = [] ∧ top.stats.dropped = 1 ∧ top.issues = [] ∧ top.fault = none := by
  intro top
  have htext : emptyText s w = (Item.block (s ++ [' ']) w).text := by simp [emptyText, Item.text]
  have htrim : trim w = [] := by
    rw [trim, trimStart_eq_nil_iff.2 hw]
    rfl
  have hhidden : (Item.block (s ++ [' ']) w).visible? = none := by rw [Item.visible?, if_pos (Or.inr htrim)]
  have hparse := Stylesheet.parse_block parsing source (hselector.plain hend) (plain_of_blank hw).quiet
    (htext ▸ hsize)
  rw [← htext, hhidden] at hparse
  obtain ⟨hrules, hissues, hfault, hdropped⟩ := hparse
  exact ⟨List.map_eq_nil_iff.1 hrules, hdropped, hissues, hfault⟩

omit hnormal in
/-- an oversized text has no rules at all -/
theorem rules_emptyText (hw : Blank w) : (Stylesheet.parse parsing source (emptyText s w)).rules = [] := by
  by_cases hsize : byteSize (emptyText s w) ≤ parsing.maxInputSize
  · exact (parse_emptyText parsing source hselector hend hw hsize).1
  · unfold Stylesheet.parse Stylesheet.parseAt
    rw [if_pos (Nat.lt_of_not_le hsize)]

end

/-- **An emptied rule, from its text to the audit.** Let `s` be a selector and `b` and `w` the inside of a rule for it
and of one with nothing but blanks. Where both are parsed, the second is dropped and counted, and nothing is reported of
it: the merge keeps the body of the first without a warning, and the audit finds no override. Where the second is given
to the merge as a rule, the merged rule is empty, the merge warns, and the audit reports the override. -/
theorem emptied_rule_audited (parsing : ParseConfig) (config : AnalysisConfig) (lower higher : SourceId)
    {s b w : Text} (hs : s ≠ []) (hnormal : Selector.normalize s = s) (hselector : Harmless s) (hend : ';' ∉ s)
    (hb : Harmless b) (hw : Blank w) :
    let base := Stylesheet.parse parsing lower (ruleText s b)
    let top := Stylesheet.parse parsing higher (emptyText s w)
    let analysis := Analysis.analyze config [base, top]
    let merged := Cascade.merge [base.rules, top.rules]
    let given := Cascade.merge [base.rules, [Rule.ofTexts s w higher 0]]
    (top.rules = [] ∧ merged.warnings = [] ∧
      ∀ i ∈ audit {} (analysis.withMerge merged), i.check ≠ .valuelessOverride) ∧
    (byteSize (emptyText s w) ≤ parsing.maxInputSize →
      top.stats.dropped = 1 ∧ top.issues = [] ∧ top.fault = none) ∧
    (byteSize (ruleText s b) ≤ parsing.maxInputSize → trim b ≠ [] →
      merged.rules.map (fun r => (r.selector, r.body)) = [(s, trim b)] ∧
      given.rules.map (fun r => (r.selector, r.body)) = [(s, [])] ∧
      given.warnings = [⟨s, higher, lower⟩] ∧
      ∃ i ∈ audit {} (analysis.withMerge given), i.check = .valuelessOverride ∧
        i.message = (⟨s, higher, lower⟩ : ValuelessOverride).describe) := by
  intro base top analysis merged given
  have hparsed : ∀ sheet ∈ [base, top], sheet.IsParsed :=
    Stylesheet.isParsed_pair (Stylesheet.isParsed_parse _ _ _) (Stylesheet.isParsed_parse _ _ _)
  have htop : top.rules = [] := rules_emptyText parsing higher hselector hend hw
  have hdropped : byteSize (emptyText s w) ≤ parsing.maxInputSize →
      top.stats.dropped = 1 ∧ top.issues = [] ∧ top.fault = none :=
    fun hsize => (parse_emptyText parsing higher hselector hend hw hsize).2
  have hbase : byteSize (ruleText s b) ≤ parsing.maxInputSize → trim b ≠ [] →
      ∃ r, base.rules = [r] ∧ r.selector = s ∧ r.body = trim b ∧ r.source = lower :=
    fun hsize hvisible => parse_ruleText parsing lower hnormal hselector hend hs hb hvisible hsize
  have hempty : (Rule.ofTexts s w higher 0).selector = s ∧ (Rule.ofTexts s w higher 0).body = [] := by
    refine ⟨hnormal, ?_⟩
    change trim w = []
    rw [trim, trimStart_eq_nil_iff.2 hw]
    rfl
  have hwarned := Cascade.warnings_of_parsed hparsed
  have hreported := no_override_of_parsed {} analysis hparsed
  rw [List.map_cons, List.map_singleton] at hwarned hreported
  refine ⟨⟨htop, hwarned, hreported⟩, hdropped, ?_⟩
  intro hsize hvisible
  obtain ⟨r, hr, hrs, hrb, hrsource⟩ := hbase hsize hvisible
  obtain ⟨hrules, hwarnings⟩ := Cascade.merge_over_empty (hempty.1.trans hrs.symm) hempty.2
  rw [← hr, hrs] at hrules hwarnings
  rw [hrsource] at hwarnings
  have hwarning : (⟨s, higher, lower⟩ : ValuelessOverride) ∈ given.warnings := by
    change _ ∈ (Cascade.merge [base.rules, [Rule.ofTexts s w higher 0]]).warnings
    rw [hwarnings]
    exact List.mem_singleton_self _
  refine ⟨?_, hrules, hwarnings, exists_override analysis given hwarning⟩
  change (Cascade.merge [base.rules, top.rules]).rules.map _ = _
  rw [hr, htop, ← hrs, ← hrb, Cascade.rules_merge]
  rfl

/-- a rule with two declarations and a block with two blanks -/
theorem emptied_rule_audited_class :
    let s := ".a".toList
    let b := "b: c; d: e/f".toList
    let w := " \n".toList
    let base := Stylesheet.parse {} ⟨0⟩ (ruleText s b)
    let top := Stylesheet.parse {} ⟨1⟩ (emptyText s w)
    let merged := Cascade.merge [base.rules, top.rules]
    let given := Cascade.merge [base.rules, [Rule.ofTexts s w ⟨1⟩ 0]]
    s ≠ [] ∧ Selector.normalize s = s ∧ Harmless s ∧ ';' ∉ s ∧ Harmless b ∧ Blank w ∧
    top.stats.dropped = 1 ∧
    merged.rules.map (fun r => (r.selector, r.body)) = [(s, b)] ∧
    (∀ i ∈ audit {} ((Analysis.analyze {} [base, top]).withMerge merged), i.check ≠ .valuelessOverride) ∧
    given.rules.map (fun r => (r.selector, r.body)) = [(s, [])] ∧
    ∃ i ∈ audit {} ((Analysis.analyze {} [base, top]).withMerge given), i.check = .valuelessOverride ∧
      i.message = (⟨s, ⟨1⟩, ⟨0⟩⟩ : ValuelessOverride).describe := by
  intro s b w base top merged given
  have hs : s ≠ [] := by decide
  have hnormal : Selector.normalize s = s := by decide +kernel
  have hselector : Harmless s := by decide +kernel
  have hend : ';' ∉ s := by decide +kernel
  have hb : Harmless b := by decide +kernel
  have hw : Blank w := by decide +kernel
  obtain ⟨⟨-, -, hsilent⟩, hdropped, hfull⟩ := emptied_rule_audited {} {} ⟨0⟩ ⟨1⟩ hs hnormal hselector hend hb hw
  obtain ⟨hmerged, hgiven, -, hreported⟩ := hfull (by decide +kernel) (by decide +kernel)
  have htrim : trim b = b := by decide +kernel
  rw [htrim] at hmerged
  exact ⟨hs, hnormal, hselector, hend, hb, hw, (hdropped (by decide +kernel)).1, hmerged, hsilent, hgiven, hreported⟩

/-- of two parsed sheets, neither is the emptied rule reported nor is it empty -/
theorem emptied_rule_dropped :
    let base := Stylesheet.parse {} ⟨0⟩ (ruleText ".a".toList "b: c".toList)
    let top := Stylesheet.parse {} ⟨1⟩ (emptyText ".a".toList " ".toList)
    let merged := Cascade.merge [base.rules, top.rules]
    Selector.normalize ".a".toList = ".a".toList ∧ Harmless ".a".toList ∧ Harmless "b: c".toList ∧ Blank " ".toList ∧
    (¬∃ i ∈ audit {} ((Analysis.analyze {} [base, top]).withMerge merged), i.check = .valuelessOverride) ∧
    ¬∃ r ∈ merged.rules, r.selector = ".a".toList ∧ r.body = [] := by
  intro base top merged
  have hparsed : ∀ sheet ∈ [base, top], sheet.IsParsed :=
    Stylesheet.isParsed_pair (Stylesheet.isParsed_parse _ _ _) (Stylesheet.isParsed_parse _ _ _)
  have hsilent := no_override_of_parsed {} (Analysis.analyze {} [base, top]) hparsed
  rw [List.map_cons, List.map_singleton] at hsilent
  have hbodies : ∀ r ∈ merged.rules, r.body ≠ [] := by decide +kernel
  refine ⟨by decide +kernel, by decide +kernel, by decide +kernel, by decide +kernel, ?_, ?_⟩
  · rintro ⟨i, hi, hcheck⟩
    exact hsilent i hi hcheck
  · rintro ⟨r, hr, -, hbody⟩
    exact hbodies r hr hbody

end Audit

end StyleCheck
