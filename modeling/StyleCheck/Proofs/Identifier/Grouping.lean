/-
Grouping blocks are transparent to identifiers.

A text and the same text as the body of a media block, or of another at-rule that groups, hold the same identifiers. The
block is read as one rule whose body is the text without comments, trimmed; parsing that body again gives the rules of
the text (`rules_grouped`, `scan_trim`). Comments leave their line feeds and the block begins on the first line, so the
inner rules even have bodies on the same lines, and all that is nested deeper is read alike. Only the line of a selector
may differ, for a selector may begin in blanks that trimming drops.
- `unplaced_identifiers`: the identifiers of a rule depend on the line of its selector in their lines only;
- `tallies_congr`: tallies do not depend on lines;
- `identifiers_grouped`: a text and its grouping block hold the same identifiers.
-/
import StyleCheck.Identifier.Extract
import StyleCheck.Proofs.Parse.Concatenation

namespace StyleCheck

open Quoting Text

/-- an occurrence, wherever it stands -/
def Occurrence.unplaced (o : Occurrence) : Occurrence := { o with line := 0 }

namespace Rule

variable (config : ParseConfig) (extra : List Text)

/-- **The line of its selector and its position do not matter to the identifiers of a rule**, their lines aside. -/
theorem unplaced_identifiers (r : Rule) (line position : Nat) :
    (identifiers config extra { r with line, position }).map Occurrence.unplaced =
      (identifiers config extra r).map Occurrence.unplaced := by
  rw [identifiers_eq, identifiers_eq config extra r]
  have hselector : (selectorNames { r with line, position }).map Occurrence.unplaced =
      r.selectorNames.map Occurrence.unplaced := by
    unfold selectorNames
    simp only
    split
    · rfl
    · rw [List.map_map, List.map_map]
      rfl
  have hkeyframe : (keyframe { r with line, position }).map Occurrence.unplaced =
      r.keyframe.map Occurrence.unplaced := by
    unfold keyframe
    rw [List.map_map, List.map_map]
    rfl
  have hproperties : properties { r with line, position } = r.properties := rfl
  have hanimations : animations extra { r with line, position } = r.animations extra := rfl
  have hgroup : isGroup { r with line, position } = r.isGroup := rfl
  have hbody : Stylesheet.parseBody config { r with line, position } = Stylesheet.parseBody config r := rfl
  rw [hproperties, hanimations, hgroup, hbody]
  split
  · rw [List.map_append, List.map_append, hkeyframe]
  split
  · rfl
  · rw [List.map_append, List.map_append, List.map_append, List.map_append, hselector]

theorem unplaced_later {k : Nat} {r r' : Rule} (h : r.Later 0 k r') :
    (identifiers config extra r).map Occurrence.unplaced = (identifiers config extra r').map Occurrence.unplaced := by
  have hr : r = { r' with line := r.line, position := r.position } := by
    obtain ⟨hs, hb, hsource, -, hk, hl⟩ := h
    cases r
    cases r'
    simp_all
  rw [hr]
  exact unplaced_identifiers config extra r' r.line r.position

theorem unplaced_flatMap {k : Nat} {rs rs' : List Rule} (h : List.Forall₂ (Rule.Later 0 k) rs rs') :
    (rs.flatMap (identifiers config extra)).map Occurrence.unplaced =
      (rs'.flatMap (identifiers config extra)).map Occurrence.unplaced := by
  induction h with
  | nil => rfl
  | cons hr _ ih =>
    rw [List.flatMap_cons, List.flatMap_cons, List.map_append, List.map_append, ih, unplaced_later config extra hr]

end Rule

namespace IdentifierSet

theorem tallies_foldl (s : IdentifierSet) (os : List Occurrence) :
    (os.foldl record s).tallies = os.foldl (fun t o => t.modify (·.record o.name) o.category) s.tallies := by
  induction os generalizing s with
  | nil => rfl
  | cons o os ih => exact ih (s.record o)

theorem occurrences_foldl (s : IdentifierSet) (os : List Occurrence) :
    (os.foldl record s).occurrences = s.occurrences ++ os := by
  induction os generalizing s with
  | nil => exact (List.append_nil _).symm
  | cons o os ih =>
    rw [List.foldl_cons, ih]
    simp [record]

theorem occurrences_ofOccurrences (origin : Origin) (os : List Occurrence) :
    (ofOccurrences origin os).occurrences = os := occurrences_foldl (empty origin) os

/-- tallies do not depend on lines -/
theorem tallies_congr {origin : Origin} {os os' : List Occurrence}
    (h : os.map Occurrence.unplaced = os'.map Occurrence.unplaced) :
    (ofOccurrences origin os).tallies = (ofOccurrences origin os').tallies := by
  have hunplaced (os : List Occurrence) : (ofOccurrences origin os).tallies =
      (os.map Occurrence.unplaced).foldl (fun t o => t.modify (·.record o.name) o.category)
        (empty origin).tallies := by
    rw [List.foldl_map]
    exact tallies_foldl (empty origin) os
  rw [hunplaced, hunplaced, h]

end IdentifierSet

/-! ## The rule of a grouping block -/

namespace Selector

/-- keywords of the at-rules that group -/
def groupers : List Text := "media".toList :: groupingKeywords

/-- what stands before the brace of a grouping block -/
def grouper (keyword : Text) : Text := '@' :: keyword ++ " all ".toList

/-- `t` as the body of a grouping block -/
def grouped (keyword t : Text) : Text := grouper keyword ++ '{' :: t ++ ['}']

/-- rules with the keyword of an at-rule that groups are groups -/
theorem groups_of_keyword (attr : Text) {selector keyword : Text} (hk : keyword ∈ groupers)
    (h : atKeyword? selector = some keyword) :
    kind attr selector ≠ .keyframes ∧ (kind attr selector = .media ∨ isGrouping selector = true) := by
  have hframes : isKeyframesKeyword keyword = false :=
    (by decide : ∀ k ∈ groupers, isKeyframesKeyword k = false) keyword hk
  unfold kind isGrouping
  rw [h]
  rcases List.mem_cons.1 hk with rfl | hg
  · exact ⟨by simp, Or.inl (if_pos rfl)⟩
  · refine ⟨?_, Or.inr (List.contains_iff_mem.2 hg)⟩
    simp only [hframes]
    split <;> simp

variable {keyword : Text} (hk : keyword ∈ groupers)
include hk

theorem isPrelude_grouper : Block.IsPrelude (grouper keyword) :=
  (by decide : ∀ k ∈ groupers, Block.IsPrelude (grouper k)) keyword hk

theorem newlines_grouper : newlines (grouper keyword) = 0 :=
  (by decide : ∀ k ∈ groupers, newlines (grouper k) = 0) keyword hk

theorem atKeyword_grouper : atKeyword? (normalize (grouper keyword)) = some keyword :=
  (by decide +kernel : ∀ k ∈ groupers, atKeyword? (normalize (grouper k)) = some k) keyword hk

/-- the text up to the brace of a grouping block is kept and leaves us in its body -/
theorem strip_grouper : Comment.strip (grouper keyword ++ ['{']) = grouper keyword ++ ['{'] ∧
    (Comment.run (Comment.start 1) (grouper keyword ++ ['{'])).place = .text code :=
  (by decide : ∀ k ∈ groupers, Comment.strip (grouper k ++ ['{']) = grouper k ++ ['{'] ∧
    (Comment.run (Comment.start 1) (grouper k ++ ['{'])).place = .text code) keyword hk

/-- without its comments, a grouping block is an item -/
theorem strip_grouped {t : Text} (h : (Comment.run (Comment.start 1) t).issues = []) :
    Comment.strip (grouped keyword t) = Item.texts [.block (grouper keyword) (Comment.strip t)] := by
  obtain ⟨hkept, hplain⟩ := strip_grouper hk
  have hparts : grouped keyword t = grouper keyword ++ ['{'] ++ (t ++ ['}']) := by simp [grouped]
  rw [hparts, Comment.strip_append hplain, hkept, Comment.strip_concat h (by decide) (by decide)]
  simp [Item.texts, Item.text]

end Selector

namespace Stylesheet

open Selector

/-- the body of a grouping block around a text, parsed again: the text without comments, trimmed, on its first line -/
def parseInner (config : ParseConfig) (source : SourceId) (t : Text) : Stylesheet :=
  parseAt config source (1 + newlines ((Comment.strip t).takeWhile isBlank)) (trim (Comment.strip t))

variable (config : ParseConfig) (source : SourceId)

/-- **The inside of a grouping block has the rules of the text**, but for the lines of their selectors. -/
theorem rules_parseInner {config : ParseConfig} {t : Text} (hsize : byteSize t ≤ config.maxInputSize)
    (hstrip : Comment.strip (Comment.strip t) = Comment.strip t) :
    List.Forall₂ (Rule.Later 0 0) (parse config source t).rules (parseInner config source t).rules := by
  have hsizeInner : byteSize (trim (Comment.strip t)) ≤ config.maxInputSize :=
    calc byteSize (trim (Comment.strip t))
      _ ≤ byteSize (Comment.strip t) := byteSize_le_of_sublist (trim_sublist _)
      _ ≤ byteSize t := byteSize_le_of_sublist (Comment.text_sublist 1 t)
      _ ≤ config.maxInputSize := hsize
  have hkept : Comment.strip (trim (Comment.strip t)) = trim (Comment.strip t) :=
    Comment.strip_eq_self_iff.2 (uncommented_trim (Comment.strip_eq_self_iff.1 hstrip))
  unfold parse parseInner
  rw [(parseAt_strip source _ hsize).1, (parseAt_strip source _ hsizeInner).1, hkept]
  exact numbered_later (rulesOf_later config source (Block.scan_trim 1 (Comment.strip t))).1 0 0

/-- **A grouping block is read as one rule**, unless its body is blank, and that rule groups. -/
theorem rules_grouped {keyword t : Text} (hk : keyword ∈ groupers)
    (hcomment : (Comment.run (Comment.start 1) t).issues = []) (hbody : Block.IsBody (Comment.strip t))
    (hsize : byteSize (grouped keyword t) ≤ config.maxInputSize) :
    (trim (Comment.strip t) = [] ∧ (parse config source (grouped keyword t)).rules = []) ∨
    ∃ r, (parse config source (grouped keyword t)).rules = [r] ∧ r.kind ≠ .keyframes ∧ r.isGroup = true ∧
      parseBody config r = parseInner config source t := by
  have hitems : ∀ i ∈ [Item.block (grouper keyword) (Comment.strip t)], i.WellFormed := by
    intro i hi
    rw [List.mem_singleton.1 hi]
    exact ⟨isPrelude_grouper hk, hbody⟩
  have hscan := Item.scan_items hitems (by decide : AsciiBlank []) 1
  rw [List.append_nil, ← strip_grouped hk hcomment] at hscan
  have hblocks : Item.blocks 1 [Item.block (grouper keyword) (Comment.strip t)] =
      [⟨(grouper keyword).dropWhile isAsciiBlank, Comment.strip t,
        1 + newlines ((grouper keyword).takeWhile isAsciiBlank), 1⟩] := by
    rw [Item.blocks, Item.block?, newlines_grouper hk]
    rfl
  have hrules := (parseAt_strip source 1 hsize).1
  rw [hscan, hblocks] at hrules
  have hkeyword := atKeyword_grouper hk
  rw [← Item.normalize_dropWhile] at hkeyword
  by_cases hv : trim (Comment.strip t) = []
  · refine Or.inl ⟨hv, hrules.trans ?_⟩
    simp [rulesOf, Block.toRule?, hv, numbered]
  · have hs : normalize ((grouper keyword).dropWhile isAsciiBlank) ≠ [] := by
      intro hs
      rw [hs] at hkeyword
      cases hkeyword
    obtain ⟨hframes, hgroup⟩ := groups_of_keyword config.themeAttribute hk hkeyword
    rw [rulesOf, List.filterMap_cons_some (toRule?_of_visible config source hs hv)] at hrules
    refine Or.inr ⟨_, hrules, hframes, ?_, rfl⟩
    simpa [Rule.isGroup] using hgroup

/-- what a grouping block holds is what is inside -/
theorem flatMap_grouped (extra : List Text) {keyword t : Text} (hk : keyword ∈ groupers)
    (hcomment : (Comment.run (Comment.start 1) t).issues = []) (hbody : Block.IsBody (Comment.strip t))
    (hsize : byteSize (grouped keyword t) ≤ config.maxInputSize) :
    (parse config source (grouped keyword t)).rules.flatMap (Rule.identifiers config extra) =
      (parseInner config source t).rules.flatMap (Rule.identifiers config extra) := by
  rcases rules_grouped config source hk hcomment hbody hsize with ⟨hv, hnone⟩ | ⟨r, hone, hframes, hgroup, hinner⟩
  · have hinner : (parseInner config source t).rules = [] := by
      unfold parseInner
      rw [hv, (parseAt_strip source _ (Nat.zero_le _)).1]
      rfl
    rw [hnone, hinner]
  · rw [hone, List.flatMap_singleton, Rule.identifiers_eq, if_neg hframes, if_pos hgroup, hinner]

/-- **A text and its grouping block hold the same identifiers.** Let a text be read without a fault, a stray brace and
an open comment, let no comment be left once its comments are removed, and let it end outside literals and escapes. As
the body of a media block, or of another at-rule that groups, it gives the same tallies and, up to their lines, the same
occurrences in the same order. -/
theorem identifiers_grouped (extra : List Text) {keyword t : Text} (hk : keyword ∈ groupers)
    (hfault : (parse config source t).fault = none)
    (hissues : ∀ i ∈ (parse config source t).issues, i.kind ≠ .strayCloseBrace ∧ i.kind ≠ .unterminatedComment)
    (hstrip : Comment.strip (Comment.strip t) = Comment.strip t)
    (hclosed : (Comment.run (Comment.start 1) t).place.quoting = .code)
    (hsize : byteSize (grouped keyword t) ≤ config.maxInputSize) :
    let alone := (parse config source t).identifiers config extra
    let within := (parse config source (grouped keyword t)).identifiers config extra
    within.tallies = alone.tallies ∧
    within.occurrences.map Occurrence.unplaced = alone.occurrences.map Occurrence.unplaced := by
  intro alone within
  have hsizeText : byteSize t ≤ config.maxInputSize := by
    simp only [grouped, byteSize_append, byteSize_cons] at hsize
    omega
  obtain ⟨-, hi, hf, -⟩ := parseAt_strip source 1 hsizeText
  have hcomment : (Comment.run (Comment.start 1) t).issues = [] := by
    refine Comment.issues_eq_nil fun i hmem => (hissues i ?_).2
    exact hi ▸ List.mem_append_left _ hmem
  have hbody : Block.IsBody (Comment.strip t) := by
    refine Block.isBody_of_scan (hf ▸ hfault) (fun i hmem => (hissues i ?_).1) (Comment.quoting_strip t ▸ hclosed)
    exact hi ▸ List.mem_append_right _ hmem
  have hsame := Rule.unplaced_flatMap config extra (rules_parseInner source hsizeText hstrip)
  rw [← flatMap_grouped config source extra hk hcomment hbody hsize] at hsame
  refine ⟨IdentifierSet.tallies_congr hsame.symm, ?_⟩
  show (IdentifierSet.ofOccurrences _ _).occurrences.map _ = (IdentifierSet.ofOccurrences _ _).occurrences.map _
  rw [IdentifierSet.occurrences_ofOccurrences, IdentifierSet.occurrences_ofOccurrences, hsame]

/-- a selector behind a blank, a comment, a group and keyframes; a cut literal and a slash at the end -/
def mixedText : Text :=
  "\x0b.a\x7b --b: c \x7d/* \x7d */@layer d\x7b#e\x7bf:g\x7d\x7d@keyframes h\x7bto\x7b\x7d\x7d\"\n/".toList

theorem identifiers_grouped_supports :
    let alone := (parse {} ⟨0⟩ mixedText).identifiers {} []
    let within := (parse {} ⟨0⟩ (grouped "supports".toList mixedText)).identifiers {} []
    "supports".toList ∈ groupers ∧ (parse {} ⟨0⟩ mixedText).fault = none ∧
    (∀ i ∈ (parse {} ⟨0⟩ mixedText).issues, i.kind ≠ .strayCloseBrace ∧ i.kind ≠ .unterminatedComment) ∧
    Comment.strip (Comment.strip mixedText) = Comment.strip mixedText ∧
    (Comment.run (Comment.start 1) mixedText).place.quoting = .code ∧
    byteSize (grouped "supports".toList mixedText) ≤ ({} : ParseConfig).maxInputSize ∧
    (parse {} ⟨0⟩ mixedText).rules.length = 3 ∧
    within.tallies = alone.tallies ∧
    within.occurrences.map Occurrence.unplaced = alone.occurrences.map Occurrence.unplaced := by
  intro alone within
  have hk : "supports".toList ∈ groupers := by decide
  have hfault : (parse {} ⟨0⟩ mixedText).fault = none := by decide +kernel
  have hissues : ∀ i ∈ (parse {} ⟨0⟩ mixedText).issues, i.kind ≠ .strayCloseBrace ∧ i.kind ≠ .unterminatedComment := by
    decide +kernel
  have hstrip : Comment.strip (Comment.strip mixedText) = Comment.strip mixedText := by decide +kernel
  have hclosed : (Comment.run (Comment.start 1) mixedText).place.quoting = .code := by decide +kernel
  have hsize : byteSize (grouped "supports".toList mixedText) ≤ ({} : ParseConfig).maxInputSize := by decide +kernel
  exact ⟨hk, hfault, hissues, hstrip, hclosed, hsize, by decide +kernel,
    identifiers_grouped {} ⟨0⟩ [] hk hfault hissues hstrip hclosed hsize⟩

end Stylesheet

end StyleCheck
