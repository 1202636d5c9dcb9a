/-
A well-formed stylesheet is recovered in full.

A stylesheet is written as items: blocks, whose bodies may hold any balanced text, and statements. Where every text is
closed, that is, ends in code and opens no comment, `parse_items` says that the items are what is parsed: every block
with a visible selector and body is a rule, in order and numbered from 0, every other block is counted as dropped,
every statement as a statement, and nothing is reported but literals that a line feed ends.

The items of `parseAt_items` are read off block by block: `visible?` says what is visible of a block, and
`visible_blocks` that this is what its rule holds.
-/
import StyleCheck.Proofs.Parse.Rules

namespace StyleCheck

open Quoting Text

/-- every issue of a cut literal says so -/
theorem Quoting.kind_of_mem_cuts {line : Nat} {q : Quoting} {t : Text} {i : Issue} (h : i ∈ cuts line q t) :
    i.kind = .unterminatedString := by
  induction t generalizing line q with
  | nil => cases h
  | cons c t ih =>
    rcases List.mem_append.1 h with h | h
    · split at h
      · rw [List.mem_singleton.1 h]
      · cases h
    · exact ih h

namespace Item

/-- no comment opens in the texts of an item -/
def Uncommented : Item → Prop
  | block p b => code.Uncommented p ∧ code.Uncommented b
  | statement p => code.Uncommented p

instance : (i : Item) → Decidable i.Uncommented
  | block p b => inferInstanceAs (Decidable (code.Uncommented p ∧ code.Uncommented b))
  | statement p => inferInstanceAs (Decidable (code.Uncommented p))

/-- the selector and the body of a block, if both are visible -/
def visible? : Item → Option (Text × Text)
  | block p b =>
    if Selector.normalize p = [] ∨ trim b = [] then none else some (Selector.normalize p, trim b)
  | statement _ => none

/-- whether an item is a block without a visible selector or body -/
def isHidden (i : Item) : Bool := !i.isStatement && i.visible?.isNone

theorem uncommented_text {i : Item} (h : i.WellFormed) (hu : i.Uncommented) : code.Uncommented i.text := by
  cases i with
  | block p b => exact uncommented_block h.1 h.2 hu.1 hu.2
  | statement p =>
    have hend : (code.run p).Uncommented [';'] := by
      rw [h.1.closed]
      decide
    exact Quoting.Uncommented.append hu hend (by simp)

/-- the rule of the block of an item holds what is visible of the item -/
theorem toRule?_visible (config : ParseConfig) (source : SourceId) {line : Nat} {p b : Text} {found : Block}
    (h : (block p b).block? line = some found) :
    (found.toRule? config source 0).map (fun r => (r.selector, r.body)) = (block p b).visible? := by
  cases h
  have hn := normalize_dropWhile p
  by_cases hs : Selector.normalize p = [] <;> by_cases hb : trim b = [] <;>
    simp [Block.toRule?, visible?, hn, hs, hb]

theorem visible_blocks (config : ParseConfig) (source : SourceId) (items : List Item) (line : Nat) :
    (Stylesheet.rulesOf config source (blocks line items)).map (fun r => (r.selector, r.body)) =
      items.filterMap visible? ∧
    Stylesheet.blanks config source (blocks line items) = items.countP isHidden := by
  induction items generalizing line with
  | nil => exact ⟨rfl, rfl⟩
  | cons i items ih =>
    obtain ⟨ihr, ihb⟩ := ih (line + newlines i.text)
    unfold Stylesheet.rulesOf Stylesheet.blanks at *
    cases i with
    | statement p => exact ⟨ihr, ihb.trans (by simp [isHidden, isStatement])⟩
    | block p b =>
      obtain ⟨found, hf⟩ : ∃ found, (block p b).block? line = some found := ⟨_, rfl⟩
      have hvisible := toRule?_visible config source hf
      have hblocks : blocks line (block p b :: items) =
          found :: blocks (line + newlines (block p b).text) items := by
        rw [blocks, hf]
        rfl
      rw [hblocks, List.countP_cons, List.countP_cons, ihb]
      cases hr : found.toRule? config source 0 with
      | none =>
        rw [hr] at hvisible
        rw [List.filterMap_cons_none hr, List.filterMap_cons_none hvisible.symm, isHidden, ← hvisible]
        exact ⟨ihr, rfl⟩
      | some r =>
        rw [hr] at hvisible
        rw [List.filterMap_cons_some hr, List.filterMap_cons_some hvisible.symm, List.map_cons, ihr, isHidden,
          ← hvisible]
        exact ⟨rfl, rfl⟩

end Item

namespace Stylesheet

theorem positions_numbered (n : Nat) (rules : List Rule) :
    (numbered n rules).map (·.position) = List.range' n rules.length := by
  induction rules generalizing n with
  | nil => rfl
  | cons r rules ih => rw [numbered_cons, List.map_cons, ih, List.length_cons, List.range'_succ]

/-- **A well-formed stylesheet is recovered in full.** Its rules are the blocks with a visible selector and body, in
order and numbered from 0; the other blocks are dropped, the statements counted, and at most cut literals reported. -/
theorem parse_items (config : ParseConfig) (source : SourceId) {items : List Item}
    (h : ∀ i ∈ items, i.WellFormed ∧ i.Uncommented) (hsize : byteSize (Item.texts items) ≤ config.maxInputSize) :
    let s := parse config source (Item.texts items)
    s.fault = none ∧
    (∀ i ∈ s.issues, i.kind = .unterminatedString) ∧
    s.stats.statements = items.countP Item.isStatement ∧
    s.rules.map (fun r => (r.selector, r.body)) = items.filterMap Item.visible? ∧
    s.rules.map (·.position) = List.range s.rules.length ∧
    s.stats.dropped = items.countP Item.isHidden := by
  have hu : code.Uncommented (Item.texts items ++ []) := by
    refine Item.uncommented_texts ?_ (by decide)
    intro i hi
    exact ⟨(h i hi).1, Item.uncommented_text (h i hi).1 (h i hi).2⟩
  have hparse := parseAt_items source (fun i hi => (h i hi).1) (by decide : AsciiBlank []) hu
    (by rwa [List.append_nil]) 1
  rw [List.append_nil] at hparse
  obtain ⟨hrules, hissues, hfault, hdropped, hstatements⟩ := hparse
  obtain ⟨hvisible, hhidden⟩ := Item.visible_blocks config source items 1
  refine ⟨hfault, ?_, hstatements, ?_, ?_, hdropped.trans hhidden⟩
  · intro i hi
    exact kind_of_mem_cuts (hissues ▸ hi)
  · exact (congrArg _ hrules).trans ((map_numbered _ (fun _ _ => rfl) 0 _).trans hvisible)
  · unfold parse
    rw [hrules, positions_numbered, numbered, List.length_mapIdx, List.range_eq_range']

/-- a statement and four blocks: with literals and escapes, with blocks inside, without a selector, without a body -/
def fiveItems : List Item :=
  [.statement "@import url(\"a;b\")".toList,
    .block "\n.a\\; > b ".toList " c: '\x7d\\' /*'; d: \"\n ".toList,
    .block "@media  e".toList "\n.f\x7b g: h \x7d\n.i\x7b\x7d".toList,
    .block " \x0b ".toList "j: k".toList,
    .block ".l".toList "\n ".toList]

theorem parse_items_five :
    let s := parse {} ⟨0⟩ (Item.texts fiveItems)
    (∀ i ∈ fiveItems, i.WellFormed ∧ i.Uncommented) ∧
    byteSize (Item.texts fiveItems) ≤ ({} : ParseConfig).maxInputSize ∧
    s.fault = none ∧ (∀ i ∈ s.issues, i.kind = .unterminatedString) ∧ s.stats.statements = 1 ∧
    s.rules.map (fun r => (r.selector, r.body)) =
      [(".a\\; > b".toList, "c: '\x7d\\' /*'; d: \"".toList),
        ("@media e".toList, ".f\x7b g: h \x7d\n.i\x7b\x7d".toList)] ∧
    s.rules.map (·.position) = List.range s.rules.length ∧ s.stats.dropped = 2 := by
  intro s
  have hitems : ∀ i ∈ fiveItems, i.WellFormed ∧ i.Uncommented := by decide +kernel
  have hsize : byteSize (Item.texts fiveItems) ≤ ({} : ParseConfig).maxInputSize := by decide +kernel
  obtain ⟨hfault, hissues, hstatements, hvisible, hpositions, hdropped⟩ := parse_items {} ⟨0⟩ hitems hsize
  exact ⟨hitems, hsize, hfault, hissues, hstatements.trans (by decide +kernel),
    hvisible.trans (by decide +kernel), hpositions, hdropped.trans (by decide +kernel)⟩

end Stylesheet

end StyleCheck
