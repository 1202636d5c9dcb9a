/-
Stylesheets as they are written, and the names they hold.

A stylesheet that is written as a sequence of items (`Written`) is parsed as the rules of its items, so the names it
holds are those that its items give (`Gives`), each by itself and whatever line it stands on.
- `mem_names_sheet`: a stylesheet holds the names that its items give;
- `mem_names_analysis`: so do all stylesheets of an analysis.
-/
import StyleCheck.Proofs.Identifier.Grouping
import StyleCheck.Proofs.Identifier.Tallies
import StyleCheck.Proofs.Parse.Rules

namespace StyleCheck

open Text Quoting

/-! ## Names of occurrences -/

namespace Occurrence

theorem namesIn_append (c : Category) (os os' : List Occurrence) :
    namesIn c (os ++ os') = namesIn c os ++ namesIn c os' := by
  unfold namesIn
  rw [List.filter_append, List.map_append]

theorem namesIn_of_ne {c : Category} {os : List Occurrence} (h : ∀ o ∈ os, o.category ≠ c) : namesIn c os = [] := by
  unfold namesIn
  rw [List.filter_eq_nil_iff.2 fun o ho => by simpa using h o ho]
  rfl

end Occurrence

namespace Rule

theorem namesIn_properties (r : Rule) {c : Category} (hc : c ≠ .property) : Occurrence.namesIn c r.properties = [] := by
  refine Occurrence.namesIn_of_ne fun o ho => ?_
  obtain ⟨x, -, rfl⟩ := List.mem_map.1 ho
  exact hc.symm

theorem namesIn_animations_of_ne (extra : List Text) (r : Rule) {c : Category} (hc : c ≠ .animation) :
    Occurrence.namesIn c (r.animations extra) = [] := by
  apply Occurrence.namesIn_of_ne
  intro o ho
  obtain ⟨d, -, hd⟩ := List.mem_filterMap.1 ho
  split at hd
  · obtain ⟨name, -, rfl⟩ := Option.map_eq_some_iff.1 hd
    exact hc.symm
  · cases hd

/-- a group holds what the rules inside it do -/
theorem identifiers_group {config : ParseConfig} {extra : List Text} {r : Rule} (hk : r.kind ≠ .keyframes)
    (hg : r.isGroup = true) :
    r.identifiers config extra = (Stylesheet.parseBody config r).rules.flatMap (Rule.identifiers config extra) := by
  rw [identifiers_eq, if_neg hk, if_pos hg]

theorem identifiers_plain {config : ParseConfig} {extra : List Text} {r : Rule} (hk : r.kind ≠ .keyframes)
    (hg : r.isGroup = false) :
    r.identifiers config extra = r.selectorNames ++ r.properties ++ r.animations extra := by
  rw [identifiers_eq, if_neg hk, hg, if_neg Bool.false_ne_true]

/-- an identifier does not depend on the position of its rule -/
theorem identifiers_position (inner : ParseConfig) (extra : List Text) (r : Rule) (n : Nat) :
    Rule.identifiers inner extra { r with position := n } = r.identifiers inner extra := by
  rw [Rule.identifiers_eq, Rule.identifiers_eq]
  rfl

end Rule

/-! ## Stylesheets -/

/-- whatever line an item stands on, its rule holds these names of a category -/
def Item.Gives (parse inner : ParseConfig) (extra : List Text) (c : Category) (i : Item) (names : List Text) : Prop :=
  ∀ source line, ∃ b r, i.block? line = some b ∧ b.toRule? parse source 0 = some r ∧
    Occurrence.namesIn c (r.identifiers inner extra) = names

/-- of two items, one holds the names and the other none -/
theorem Item.Gives.of_pair {parse inner : ParseConfig} {extra : List Text} {c : Category} {i j k : Item}
    {names : List Text} (hj : Item.Gives parse inner extra c j names) (hk : Item.Gives parse inner extra c k [])
    (hi : i = j ∨ i = k) : Item.Gives parse inner extra c i (if i = j then names else []) := by
  by_cases he : i = j
  · rw [he, if_pos rfl]
    exact hj
  · rw [if_neg he, hi.resolve_left he]
    exact hk

/-- a stylesheet as it is written, with blanks at its end -/
structure Written where
  source : SourceId
  items : List Item
  gap : Text
  deriving DecidableEq, Repr

namespace Written

open Occurrence

def text (w : Written) : Text := Item.texts w.items ++ w.gap

/-- whether the text is read as the items -/
structure Proper (parse : ParseConfig) (w : Written) : Prop where
  items : ∀ i ∈ w.items, i.WellFormed ∧ code.Uncommented i.text
  gap : AsciiBlank w.gap
  size : byteSize w.text ≤ parse.maxInputSize

/-- the stylesheet that the text is parsed as -/
def sheet (parse : ParseConfig) (w : Written) : Stylesheet := .parse parse w.source w.text

variable {parse : ParseConfig} (inner : ParseConfig) (extra : List Text)

/-- the rules of items hold the names that the items give -/
theorem namesIn_blocks (source : SourceId) {c : Category} {given : Item → List Text} {items : List Item}
    (h : ∀ i ∈ items, Item.Gives parse inner extra c i (given i)) (line : Nat) :
    namesIn c ((Stylesheet.rulesOf parse source (Item.blocks line items)).flatMap (Rule.identifiers inner extra)) =
      items.flatMap given := by
  induction items generalizing line with
  | nil => rfl
  | cons i items ih =>
    obtain ⟨hi, hitems⟩ := List.forall_mem_cons.1 h
    obtain ⟨b, r, hb, hr, hnames⟩ := hi source line
    have hrules : Stylesheet.rulesOf parse source (Item.blocks line (i :: items)) =
        r :: Stylesheet.rulesOf parse source (Item.blocks (line + newlines i.text) items) := by
      rw [Item.blocks, hb]
      exact List.filterMap_cons_some hr
    rw [hrules, List.flatMap_cons, namesIn_append, hnames, ih hitems, List.flatMap_cons]

/-- **A stylesheet holds the names that its items give.** -/
theorem mem_names_sheet {w : Written} (hw : w.Proper parse) {c : Category} {given : Item → List Text}
    (h : ∀ i ∈ w.items, Item.Gives parse inner extra c i (given i)) (n : Text) :
    n ∈ (((w.sheet parse).identifiers inner extra).tally c).names ↔ ∃ i ∈ w.items, n ∈ given i := by
  have hrules : (w.sheet parse).rules = _ :=
    (Stylesheet.parseAt_items w.source (fun i hi => (hw.items i hi).1) hw.gap
      (Item.uncommented_texts hw.items hw.gap) hw.size 1).1
  have hflat : (w.sheet parse).rules.flatMap (Rule.identifiers inner extra) =
      (Stylesheet.rulesOf parse w.source (Item.blocks 1 w.items)).flatMap (Rule.identifiers inner extra) := by
    rw [hrules, List.flatMap_def, List.flatMap_def, Stylesheet.map_numbered _ (Rule.identifiers_position inner extra)]
  have hnames := (IdentifierSet.agrees_ofOccurrences .stylesheet
    ((w.sheet parse).rules.flatMap (Rule.identifiers inner extra)) c).names
  rw [IdentifierSet.occurrences_ofOccurrences, hflat, namesIn_blocks inner extra w.source h] at hnames
  unfold Stylesheet.identifiers
  rw [hflat, hnames, List.mem_eraseDups, List.mem_flatMap]

/-- **So do all stylesheets of an analysis.** -/
theorem mem_names_analysis (config : AnalysisConfig) {sheets : List Written} (hw : ∀ w ∈ sheets, w.Proper parse)
    {c : Category} {given : Item → List Text}
    (h : ∀ i ∈ sheets.flatMap (·.items), Item.Gives parse config.parse config.reserved c i (given i)) (n : Text) :
    n ∈ ((Analysis.analyze config (sheets.map (·.sheet parse))).identifiers.tally c).names ↔
      ∃ i ∈ sheets.flatMap (·.items), n ∈ given i := by
  have hgives : ∀ w ∈ sheets, ∀ i ∈ w.items, Item.Gives parse config.parse config.reserved c i (given i) :=
    fun w hmem i hi => h i (List.mem_flatMap.2 ⟨w, hmem, hi⟩)
  refine (IdentifierSet.mem_names_reduce (Analysis.agrees_perSheet config _) c n).trans ⟨?_, ?_⟩
  · rintro ⟨s, hs, hn⟩
    obtain ⟨sheet, hsheet, rfl⟩ := List.mem_map.1 hs
    obtain ⟨w, hmem, rfl⟩ := List.mem_map.1 hsheet
    obtain ⟨i, hi, hn⟩ := (mem_names_sheet _ _ (hw w hmem) (hgives w hmem) n).1 hn
    exact ⟨i, List.mem_flatMap.2 ⟨w, hmem, hi⟩, hn⟩
  · rintro ⟨i, hi, hn⟩
    obtain ⟨w, hmem, hi⟩ := List.mem_flatMap.1 hi
    have hsheet := List.mem_map_of_mem (f := (·.sheet parse)) hmem
    exact ⟨_, List.mem_map_of_mem hsheet, (mem_names_sheet _ _ (hw w hmem) (hgives w hmem) n).2 ⟨i, hi, hn⟩⟩

end Written

end StyleCheck
