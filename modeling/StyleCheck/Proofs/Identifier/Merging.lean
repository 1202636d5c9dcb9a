/-
What a merge keeps of the identifiers of its layers.

Names do not depend on where a rule stands. Two rules with one selector and one body (`Twin`) hold the same names,
however deep, and if they do not group, not even their bodies matter to classes, ids and keyframes, which are read off
selectors (`Akin`). A merge holds, for each selector, a twin of the last rule for it. So such a name is lost only with a
grouping block that a later block with the same prelude replaces as a whole.
- `twins_parseBody`: twins have twins inside; `labels_twin`: so they hold the same names;
- `namesIn_akin`: what is read off selectors;
- `twin_of_mem_merge`: the rules of a merge;
- `names_merge`: the classes, ids and keyframes of a merge, and when none are lost.
-/
import StyleCheck.Proofs.Identifier.Written
import StyleCheck.Proofs.Parse.Clean

namespace StyleCheck

open Text

/-! ## Blocks on any line -/

namespace Block

/-- what a block is, wherever it stands -/
def content (b : Block) : Text × Text := (Selector.normalize b.prelude, b.body)

theorem content_of_later {n : Nat} {b b' : Block} (h : b.Later n b') : b.content = b'.content := by
  obtain ⟨g, hg, hp⟩ := h.prelude
  unfold content
  rw [hp, Selector.normalize_append hg, h.body]

/-- the blocks of a text are the same on every line -/
theorem content_scan (line line' : Nat) (t : Text) :
    (scan line t).blocks.map content = (scan line' t).blocks.map content := by
  have hzero (line : Nat) : (scan line t).blocks.map content = (scan 0 t).blocks.map content := by
    have hstart : (run (start line) []).Later line [] (start 0) :=
      ⟨rfl, (Nat.zero_add line).symm, .between, [], rfl, .nil⟩
    obtain ⟨⟨found, hfound, hlater⟩, -⟩ := scan_append hstart t
    rw [List.nil_append, List.reverse_nil, List.nil_append] at hfound
    rw [hfound, ← List.forall₂_eq_eq_eq, List.forall₂_map_left_iff, List.forall₂_map_right_iff]
    exact hlater.imp fun _ _ h => content_of_later h
  exact (hzero line).trans (hzero line').symm

end Block

/-! ## Rules that hold the same names -/

namespace Rule

/-- rules for one selector and of one sort -/
structure Akin (r r' : Rule) : Prop where
  selector : r.selector = r'.selector
  keyframes : r.kind = .keyframes ↔ r'.kind = .keyframes
  group : r.isGroup = r'.isGroup

/-- rules that differ in where they stand, and perhaps in whether they are for a theme -/
structure Twin (r r' : Rule) : Prop extends Akin r r' where
  body : r.body = r'.body

end Rule

namespace Selector

/-- which attribute names themes makes no difference to media blocks and keyframes -/
theorem kind_eq_iff {k : RuleKind} (hk : k = .media ∨ k = .keyframes) (attr attr' selector : Text) :
    kind attr selector = k ↔ kind attr' selector = k := by
  unfold kind
  cases atKeyword? selector with
  | some keyword => rfl
  | none =>
    have hnone (attr : Text) : (if isThemed attr selector then RuleKind.theme else .plain) ≠ k := by
      rcases hk with rfl | rfl <;> split <;> decide
    exact iff_of_false (hnone attr) (hnone attr')

end Selector

theorem Rule.Parsed.akin {r r' : Rule} (h : r.Parsed) (h' : r'.Parsed) (hs : r.selector = r'.selector) : r.Akin r' := by
  obtain ⟨attr, hk⟩ := h.kind
  obtain ⟨attr', hk'⟩ := h'.kind
  rw [← hs] at hk'
  refine ⟨hs, ?_, ?_⟩
  · rw [hk, hk']
    exact Selector.kind_eq_iff (Or.inr rfl) attr attr' r.selector
  · unfold isGroup
    rw [hk, hk', hs, decide_eq_decide.2 (Selector.kind_eq_iff (Or.inl rfl) attr attr' r'.selector)]

namespace Stylesheet

variable (config : ParseConfig) (source source' : SourceId)

theorem toRule?_content {b b' : Block} (h : b.content = b'.content) :
    (b.toRule? config source 0 = none ∧ b'.toRule? config source' 0 = none) ∨
      ∃ r r', b.toRule? config source 0 = some r ∧ b'.toRule? config source' 0 = some r' ∧ r.Twin r' := by
  obtain ⟨hs, hb⟩ := Prod.mk.inj h
  unfold Block.toRule?
  simp only [hs, hb]
  split
  · exact Or.inl ⟨rfl, rfl⟩
  · exact Or.inr ⟨_, _, rfl, rfl, ⟨rfl, Iff.rfl, rfl⟩, rfl⟩

theorem rulesOf_content {bs bs' : List Block} (h : bs.map Block.content = bs'.map Block.content) :
    List.Forall₂ Rule.Twin (rulesOf config source bs) (rulesOf config source' bs') := by
  rw [← List.forall₂_eq_eq_eq, List.forall₂_map_left_iff, List.forall₂_map_right_iff] at h
  apply List.rel_filterMap _ h
  intro b b' hb
  rcases toRule?_content config source source' hb with ⟨hr, hr'⟩ | ⟨r, r', hr, hr', htwin⟩
  · simp only [hr, hr']
    exact .none
  · simp only [hr, hr']
    exact .some htwin

theorem numbered_twin {rs rs' : List Rule} (h : List.Forall₂ Rule.Twin rs rs') (n : Nat) :
    List.Forall₂ Rule.Twin (numbered n rs) (numbered n rs') := by
  induction h generalizing n with
  | nil => exact .nil
  | cons hr _ ih =>
    rw [numbered_cons, numbered_cons]
    exact .cons ⟨⟨hr.selector, hr.keyframes, hr.group⟩, hr.body⟩ (ih (n + 1))

/-- **Twins have twins inside.** -/
theorem twins_parseBody {r r' : Rule} (h : r.Twin r') :
    List.Forall₂ Rule.Twin (parseBody config r).rules (parseBody config r').rules := by
  unfold parseBody
  rw [h.body]
  by_cases hsize : byteSize r'.body ≤ config.maxInputSize
  · rw [(parseAt_strip r.source r.bodyLine hsize).1, (parseAt_strip r'.source r'.bodyLine hsize).1]
    exact numbered_twin (rulesOf_content config _ _ (Block.content_scan _ _ _)) 0
  · unfold parseAt
    rw [if_pos (Nat.lt_of_not_le hsize), if_pos (Nat.lt_of_not_le hsize)]
    exact .nil

end Stylesheet

/-! ## Names of rules -/

namespace IdentRun

theorem texts_closed {s s' : St} (hrun : s.run = s'.run) (hruns : s.runs.map (·.2) = s'.runs.map (·.2)) :
    s.closed.map (·.2) = s'.closed.map (·.2) := by
  unfold St.closed
  rw [hrun]
  split
  · exact hruns
  · exact congrArg (s'.run.reverse :: ·) hruns

theorem texts_foldl {s s' : St} (hrun : s.run = s'.run) (hruns : s.runs.map (·.2) = s'.runs.map (·.2)) (t : Text) :
    (t.foldl step s).closed.map (·.2) = (t.foldl step s').closed.map (·.2) := by
  induction t generalizing s s' with
  | nil => exact texts_closed hrun hruns
  | cons c t ih =>
    rw [List.foldl_cons, List.foldl_cons]
    by_cases hc : isIdentChar c = true
    · simp only [step, if_pos hc]
      exact ih (congrArg (c :: ·) hrun) hruns
    · simp only [step, if_neg hc]
      exact ih rfl (texts_closed hrun hruns)

end IdentRun

/-- the runs of a text are the same on every line -/
theorem texts_identRuns (line line' : Nat) (t : Text) :
    (identRuns line t).map (·.2) = (identRuns line' t).map (·.2) := by
  unfold identRuns
  rw [List.map_reverse, List.map_reverse]
  apply congrArg List.reverse
  apply IdentRun.texts_foldl <;> rfl

/-- what an occurrence adds to the tallies -/
def Occurrence.label (o : Occurrence) : Category × Text := (o.category, o.name)

theorem Occurrence.namesIn_of_label {os os' : List Occurrence} (h : os.map label = os'.map label) (c : Category) :
    namesIn c os = namesIn c os' := by
  have hlabel (os : List Occurrence) : namesIn c os = ((os.map label).filter (·.1 = c)).map (·.2) := by
    rw [namesIn, List.filter_map, List.map_map]
    rfl
  rw [hlabel, hlabel, h]

namespace Rule

open Occurrence

variable {r r' : Rule}

theorem label_selectorNames (h : r.selector = r'.selector) :
    r.selectorNames.map label = r'.selectorNames.map label := by
  unfold selectorNames
  rw [h]
  split
  · rfl
  · rw [List.map_map, List.map_map]
    rfl

theorem label_keyframe (h : r.Akin r') : r.keyframe.map label = r'.keyframe.map label := by
  have hname : r.keyframesName? = r'.keyframesName? := by
    unfold keyframesName?
    rw [h.selector, if_congr h.keyframes rfl rfl]
  unfold keyframe
  rw [hname, List.map_map, List.map_map]
  rfl

theorem label_properties (h : r.body = r'.body) : r.properties.map label = r'.properties.map label := by
  have hlabel (r : Rule) : r.properties.map label =
      (((identRuns r.bodyLine r.body).map (·.2)).filter Declaration.isCustom).map fun run => (.property, run) := by
    unfold properties
    rw [List.map_map, List.filter_map, List.map_map]
    rfl
  rw [hlabel, hlabel, h, texts_identRuns]

theorem label_animations (extra : List Text) (h : r.body = r'.body) :
    (r.animations extra).map label = (r'.animations extra).map label := by
  unfold animations
  rw [h, List.map_filterMap, List.map_filterMap]
  apply List.filterMap_congr
  intro d _
  split
  · rw [Option.map_map, Option.map_map]
    rfl
  · rfl

theorem labels_flatMap {f : Rule → List Occurrence} {rs rs' : List Rule}
    (h : List.Forall₂ (fun r r' => (f r).map label = (f r').map label) rs rs') :
    (rs.flatMap f).map label = (rs'.flatMap f).map label := by
  induction h with
  | nil => rfl
  | cons hr _ ih => rw [List.flatMap_cons, List.flatMap_cons, List.map_append, List.map_append, hr, ih]

/-- **Twins hold the same names**, in the same order. -/
theorem labels_twin (config : ParseConfig) (extra : List Text) (h : r.Twin r') :
    (r.identifiers config extra).map label = (r'.identifiers config extra).map label := by
  induction hsize : byteSize r.body using Nat.strong_induction_on generalizing r r' with
  | _ n ih =>
    subst hsize
    rw [identifiers_eq, identifiers_eq config extra r', if_congr h.keyframes rfl rfl, h.group]
    split
    · rw [List.map_append, List.map_append, label_keyframe h.toAkin, label_properties h.body]
    split
    · obtain ⟨hlength, hzip⟩ := List.forall₂_iff_zip.1 (Stylesheet.twins_parseBody config h)
      apply labels_flatMap
      refine List.forall₂_iff_zip.2 ⟨hlength, fun hp => ?_⟩
      exact ih _ (Stylesheet.nested_body_lt (List.of_mem_zip hp).1) (hzip hp) rfl
    · rw [List.map_append, List.map_append, List.map_append, List.map_append, label_selectorNames h.selector,
        label_properties h.body, label_animations extra h.body]

/-- **What is read off selectors** is the same for all rules for a selector that do not group. -/
theorem namesIn_akin (config : ParseConfig) (extra : List Text) (h : r.Akin r') (hgroup : r.isGroup = false)
    {c : Category} (hc : c ∈ [Category.className, .id, .keyframe]) :
    namesIn c (r.identifiers config extra) = namesIn c (r'.identifiers config extra) := by
  have hproperty : c ≠ .property := by rintro rfl; revert hc; decide
  have hanimation : c ≠ .animation := by rintro rfl; revert hc; decide
  have hgroup' : r'.isGroup = false := h.group.symm.trans hgroup
  rw [identifiers_eq, identifiers_eq config extra r', if_congr h.keyframes rfl rfl, hgroup, hgroup']
  split
  · rw [namesIn_append, namesIn_append, namesIn_properties r hproperty, namesIn_properties r' hproperty,
      namesIn_of_label (label_keyframe h)]
  · rw [if_neg Bool.false_ne_true, if_neg Bool.false_ne_true, namesIn_append, namesIn_append, namesIn_append,
      namesIn_append, namesIn_properties r hproperty, namesIn_properties r' hproperty,
      namesIn_animations_of_ne extra r hanimation, namesIn_animations_of_ne extra r' hanimation,
      namesIn_of_label (label_selectorNames h.selector)]

end Rule

/-! ## Sets of rules -/

namespace IdentifierSet

open Occurrence

/-- every identifier that some rules hold; `config` is that of the blocks parsed again -/
def ofRules (config : ParseConfig) (extra : List Text) (rules : List Rule) : IdentifierSet :=
  .ofOccurrences .stylesheet (rules.flatMap (Rule.identifiers config extra))

variable (config : ParseConfig) (extra : List Text)

theorem mem_names_ofRules (rules : List Rule) (c : Category) (n : Text) :
    n ∈ ((ofRules config extra rules).tally c).names ↔ ∃ r ∈ rules, n ∈ namesIn c (r.identifiers config extra) := by
  unfold ofRules
  rw [(agrees_ofOccurrences _ _).mem_names_iff, occurrences_ofOccurrences]
  constructor
  · rintro ⟨o, ho, hc, hn⟩
    obtain ⟨r, hr, ho⟩ := List.mem_flatMap.1 ho
    exact ⟨r, hr, List.mem_map.2 ⟨o, List.mem_filter.2 ⟨ho, decide_eq_true hc⟩, hn⟩⟩
  · rintro ⟨r, hr, hn⟩
    obtain ⟨o, ho, hn⟩ := List.mem_map.1 hn
    obtain ⟨ho, hc⟩ := List.mem_filter.1 ho
    exact ⟨o, List.mem_flatMap.2 ⟨r, hr, ho⟩, of_decide_eq_true hc, hn⟩

/-- what stylesheets come to is what all their rules hold -/
theorem mem_names_sheets (sheets : List Stylesheet) (c : Category) (n : Text) :
    n ∈ ((reduce (sheets.map (·.identifiers config extra))).tally c).names ↔
      ∃ r ∈ sheets.flatMap (·.rules), n ∈ namesIn c (r.identifiers config extra) := by
  have hagrees : ∀ s ∈ sheets.map (·.identifiers config extra), s.Agrees := by
    intro s hs
    obtain ⟨sheet, -, rfl⟩ := List.mem_map.1 hs
    exact agrees_ofOccurrences _ _
  rw [mem_names_reduce hagrees]
  constructor
  · rintro ⟨s, hs, hn⟩
    obtain ⟨sheet, hsheet, rfl⟩ := List.mem_map.1 hs
    obtain ⟨r, hr, hn⟩ := (mem_names_ofRules config extra sheet.rules c n).1 hn
    exact ⟨r, List.mem_flatMap.2 ⟨sheet, hsheet, hr⟩, hn⟩
  · rintro ⟨r, hr, hn⟩
    obtain ⟨sheet, hsheet, hr⟩ := List.mem_flatMap.1 hr
    have hmem := (mem_names_ofRules config extra sheet.rules c n).2 ⟨r, hr, hn⟩
    exact ⟨_, List.mem_map_of_mem hsheet, hmem⟩

end IdentifierSet

/-! ## Merges -/

namespace Cascade

open Occurrence

variable {layers : List (List Rule)} (h : ∀ r ∈ layers.flatten, r.Parsed)
include h

/-- **A rule of a merge** is a twin of the last rule for its selector. -/
theorem twin_of_mem_merge {m : Rule} (hm : m ∈ (merge layers).rules) :
    ∃ l ∈ layers.flatten, last? layers.flatten m.selector = some l ∧ m.Twin l := by
  obtain ⟨f, l, n, hf, hl, rfl⟩ := ends_of_mem_merge hm
  have hfmem : f ∈ layers.flatten := List.mem_of_find?_eq_some hf
  have hlmem : l ∈ layers.flatten := List.mem_reverse.1 (List.mem_of_find?_eq_some hl)
  obtain ⟨hs, hk, hg⟩ := (h f hfmem).akin (h l hlmem) (selector_of_last? hl).symm
  exact ⟨l, hlmem, hl, ⟨hs, hk, hg⟩, rfl⟩

/-- every rule has one for its selector in the merge -/
theorem exists_akin_merge {r : Rule} (hr : r ∈ layers.flatten) :
    ∃ m ∈ (merge layers).rules, m.Akin r ∧ (last? layers.flatten r.selector = some r → m.Twin r) := by
  have hs : r.selector ∈ (merge layers).rules.map (·.selector) :=
    ((settled_merge layers).mem_selectors _).2 (List.mem_map_of_mem hr)
  obtain ⟨m, hm, hms⟩ := List.mem_map.1 hs
  obtain ⟨l, hlmem, hl, htwin⟩ := twin_of_mem_merge h hm
  rw [hms] at hl
  have hlr : l.Akin r := (h l hlmem).akin (h r hr) (selector_of_last? hl)
  refine ⟨m, hm, ⟨hms, htwin.keyframes.trans hlr.keyframes, htwin.group.trans hlr.group⟩, ?_⟩
  intro hlast
  obtain rfl : l = r := Option.some.inj (hl.symm.trans hlast)
  exact htwin

omit h in
/-- `r` is a grouping block and another rule is the last one with its prelude -/
def Replaced (rules : List Rule) (r : Rule) : Prop := r.isGroup = true ∧ last? rules r.selector ≠ some r

/-- **The classes, ids and keyframes of the rules of a merge** -/
theorem mem_names_merge (config : ParseConfig) (extra : List Text) {c : Category}
    (hc : c ∈ [Category.className, .id, .keyframe]) (n : Text) :
    (∃ m ∈ (merge layers).rules, n ∈ namesIn c (m.identifiers config extra)) ↔
      ∃ r ∈ layers.flatten, ¬Replaced layers.flatten r ∧ n ∈ namesIn c (r.identifiers config extra) := by
  constructor
  · rintro ⟨m, hm, hn⟩
    obtain ⟨l, hlmem, hl, htwin⟩ := twin_of_mem_merge h hm
    rw [htwin.selector] at hl
    rw [namesIn_of_label (Rule.labels_twin config extra htwin)] at hn
    exact ⟨l, hlmem, fun hreplaced => hreplaced.2 hl, hn⟩
  · rintro ⟨r, hr, hstays, hn⟩
    obtain ⟨m, hm, hakin, htwin⟩ := exists_akin_merge h hr
    refine ⟨m, hm, ?_⟩
    cases hgroup : r.isGroup with
    | true =>
      have hlast : last? layers.flatten r.selector = some r := by
        by_contra hlast
        exact hstays ⟨hgroup, hlast⟩
      rwa [namesIn_of_label (Rule.labels_twin config extra (htwin hlast))]
    | false => rwa [Rule.namesIn_akin config extra hakin (hakin.group.trans hgroup) hc]

end Cascade

namespace Stylesheet

open Occurrence Cascade

/-- **What a merge keeps of the identifiers of its stylesheets.** A class, an id or the name of keyframes is held by the
merged rules if some rule of the stylesheets holds it that is not a grouping block replaced by a later one with the same
prelude; all stylesheets together hold what any rule does. So merging adds no such name, and it loses none exactly if
what the replaced blocks hold is also held by rules that are not replaced. -/
theorem names_merge (config : ParseConfig) (extra : List Text) {sheets : List Stylesheet}
    (h : ∀ s ∈ sheets, s.IsParsed) {c : Category} (hc : c ∈ [Category.className, .id, .keyframe]) :
    let rules := sheets.flatMap (·.rules)
    let merged := IdentifierSet.ofRules config extra (merge (sheets.map (·.rules))).rules
    let reduced := IdentifierSet.reduce (sheets.map (·.identifiers config extra))
    (∀ n, n ∈ (merged.tally c).names ↔
      ∃ r ∈ rules, ¬Replaced rules r ∧ n ∈ namesIn c (r.identifiers config extra)) ∧
    (∀ n, n ∈ (reduced.tally c).names ↔ ∃ r ∈ rules, n ∈ namesIn c (r.identifiers config extra)) ∧
    (∀ n ∈ (merged.tally c).names, n ∈ (reduced.tally c).names) ∧
    ((∀ n, n ∈ (merged.tally c).names ↔ n ∈ (reduced.tally c).names) ↔
      ∀ r ∈ rules, Replaced rules r → ∀ n ∈ namesIn c (r.identifiers config extra),
        ∃ r' ∈ rules, ¬Replaced rules r' ∧ n ∈ namesIn c (r'.identifiers config extra)) := by
  intro rules merged reduced
  have hflat : (sheets.map (·.rules)).flatten = rules := rfl
  have hparsed : ∀ r ∈ (sheets.map (·.rules)).flatten, r.Parsed := by
    intro r hr
    obtain ⟨s, hs, hr⟩ := List.mem_flatMap.1 (hflat ▸ hr)
    exact (h s hs).rule hr
  have hmerged : ∀ n, n ∈ (merged.tally c).names ↔
      ∃ r ∈ rules, ¬Replaced rules r ∧ n ∈ namesIn c (r.identifiers config extra) := by
    intro n
    rw [IdentifierSet.mem_names_ofRules, mem_names_merge hparsed config extra hc, hflat]
  have hreduced : ∀ n, n ∈ (reduced.tally c).names ↔ ∃ r ∈ rules, n ∈ namesIn c (r.identifiers config extra) := by
    intro n
    exact IdentifierSet.mem_names_sheets config extra sheets c n
  have hsubset : ∀ n ∈ (merged.tally c).names, n ∈ (reduced.tally c).names := by
    intro n hn
    obtain ⟨r, hr, -, hn⟩ := (hmerged n).1 hn
    exact (hreduced n).2 ⟨r, hr, hn⟩
  refine ⟨hmerged, hreduced, hsubset, ?_, ?_⟩
  · intro hsame r hr _ n hn
    exact (hmerged n).1 ((hsame n).2 ((hreduced n).2 ⟨r, hr, hn⟩))
  · intro hkept n
    refine ⟨hsubset n, fun hn => (hmerged n).2 ?_⟩
    obtain ⟨r, hr, hn⟩ := (hreduced n).1 hn
    by_cases hreplaced : Replaced rules r
    · exact hkept r hr hreplaced n hn
    · exact ⟨r, hr, hreplaced, hn⟩

/-- two media blocks with one prelude and a class in each -/
def printSheets : List Stylesheet :=
  [parse {} ⟨0⟩ "@media print\x7b.a\x7bb:c\x7d\x7d".toList, parse {} ⟨1⟩ "@media print\x7b.d\x7be:f\x7d\x7d".toList]

theorem isParsed_printSheets : ∀ s ∈ printSheets, s.IsParsed :=
  isParsed_pair (isParsed_parse _ _ _) (isParsed_parse _ _ _)

/-- a media block -/
def printBlock (source : Nat) (body : String) : Rule :=
  ⟨"@media print".toList, body.toList, ⟨source⟩, 0, .media, 1, 1⟩

/-- a rule inside such a block -/
def printInner (source : Nat) (selector body : String) : Rule :=
  ⟨selector.toList, body.toList, ⟨source⟩, 0, .plain, 1, 1⟩

/-- the class of the first block is lost -/
theorem names_printSheets :
    ((IdentifierSet.ofRules {} [] (merge (printSheets.map (·.rules))).rules).tally .className).names = ["d".toList] ∧
    ((IdentifierSet.reduce (printSheets.map (·.identifiers {} []))).tally .className).names =
      ["a".toList, "d".toList] := by
  have hrules : printSheets.map (·.rules) =
      [[printBlock 0 ".a\x7bb:c\x7d"], [printBlock 1 ".d\x7be:f\x7d"]] := by decide +kernel
  have hmerge : (merge (printSheets.map (·.rules))).rules = [printBlock 1 ".d\x7be:f\x7d"] := by decide +kernel
  have hblock (source : Nat) (body : String) : (printBlock source body).identifiers {} [] =
      (parseBody {} (printBlock source body)).rules.flatMap (Rule.identifiers {} []) :=
    Rule.identifiers_group nofun rfl
  have ha : (printBlock 0 ".a\x7bb:c\x7d").identifiers {} [] = [⟨.className, "a".toList, ⟨0⟩, 1, ".a".toList⟩] := by
    have hinner : (parseBody {} (printBlock 0 ".a\x7bb:c\x7d")).rules = [printInner 0 ".a" "b:c"] := by decide +kernel
    rw [hblock, hinner, List.flatMap_singleton, Rule.identifiers_plain]
    · decide +kernel
    · exact nofun
    · rfl
  have hd : (printBlock 1 ".d\x7be:f\x7d").identifiers {} [] = [⟨.className, "d".toList, ⟨1⟩, 1, ".d".toList⟩] := by
    have hinner : (parseBody {} (printBlock 1 ".d\x7be:f\x7d")).rules = [printInner 1 ".d" "e:f"] := by decide +kernel
    rw [hblock, hinner, List.flatMap_singleton, Rule.identifiers_plain]
    · decide +kernel
    · exact nofun
    · rfl
  constructor
  · rw [hmerge, IdentifierSet.ofRules, List.flatMap_singleton, hd]
    decide +kernel
  · have hsets : printSheets.map (·.identifiers {} []) =
        (printSheets.map (·.rules)).map (IdentifierSet.ofRules {} []) := List.map_map.symm
    rw [hsets, hrules, List.map_cons, List.map_singleton, IdentifierSet.ofRules, IdentifierSet.ofRules,
      List.flatMap_singleton, List.flatMap_singleton, ha, hd]
    decide +kernel

theorem names_merge_media :
    let rules := printSheets.flatMap (·.rules)
    let merged := IdentifierSet.ofRules {} [] (merge (printSheets.map (·.rules))).rules
    let reduced := IdentifierSet.reduce (printSheets.map (·.identifiers {} []))
    (∀ s ∈ printSheets, s.IsParsed) ∧ .className ∈ [Category.className, .id, .keyframe] ∧
    (merged.tally .className).names = ["d".toList] ∧ (reduced.tally .className).names = ["a".toList, "d".toList] ∧
    (∀ n, n ∈ (merged.tally .className).names ↔
      ∃ r ∈ rules, ¬Replaced rules r ∧ n ∈ namesIn .className (r.identifiers {} [])) ∧
    (∀ n, n ∈ (reduced.tally .className).names ↔ ∃ r ∈ rules, n ∈ namesIn .className (r.identifiers {} [])) ∧
    (∀ n ∈ (merged.tally .className).names, n ∈ (reduced.tally .className).names) ∧
    ((∀ n, n ∈ (merged.tally .className).names ↔ n ∈ (reduced.tally .className).names) ↔
      ∀ r ∈ rules, Replaced rules r → ∀ n ∈ namesIn .className (r.identifiers {} []),
        ∃ r' ∈ rules, ¬Replaced rules r' ∧ n ∈ namesIn .className (r'.identifiers {} [])) := by
  intro rules merged reduced
  have hc : .className ∈ [Category.className, .id, .keyframe] := by decide
  exact ⟨isParsed_printSheets, hc, names_printSheets.1, names_printSheets.2,
    names_merge {} [] isParsed_printSheets hc⟩

/-- a later media block takes the place of the first one with all that is in it -/
theorem class_lost_in_merge :
    ¬∀ sheets : List Stylesheet, (∀ s ∈ sheets, s.IsParsed) → ∀ c ∈ [Category.className, .id, .keyframe], ∀ n,
      n ∈ ((IdentifierSet.ofRules {} [] (merge (sheets.map (·.rules))).rules).tally c).names ↔
        n ∈ ((IdentifierSet.reduce (sheets.map (·.identifiers {} []))).tally c).names := by
  intro hsame
  have ha := hsame printSheets isParsed_printSheets .className (by decide) "a".toList
  rw [names_printSheets.1, names_printSheets.2] at ha
  exact absurd (ha.2 (by decide)) (by decide)

end Stylesheet

end StyleCheck
