/-
Where a selector begins.

A rule is found in the visible text, the characters outside comments: all that is in front of its prelude is closed and
holds the rules in front of it, and behind the prelude stands its body, in braces (`Layout`, `Layout.Shows`). A prelude
is begun by its first character that is no ASCII blank, but its selector by the first one that is no blank at all; the
line of a rule is that of the former.
- `anchored_act`: one character keeps that what is collected began between two blocks, and so did every block found;
  `anchored_run`: so does every text;
- `blocks_block`: reading a block between two others finds it, begun behind the ASCII blanks of its prelude;
- `exists_layout`: every rule of a parse has a layout;
- `line_of_shows`: reading a layout finds its rule;
- `line_of_mem_parse`: the line of a rule is that of the character that begins its prelude, and so that of its selector
  unless a line feed stands between blanks beyond ASCII and the selector.
-/
import StyleCheck.Proofs.Parse.Concatenation
import StyleCheck.Proofs.Parse.Recovery
import StyleCheck.Proofs.Parse.Removal
import StyleCheck.Proofs.Parse.Tracing

namespace StyleCheck

open Quoting Text Trace

/-! ## Where blocks begin -/

namespace Block

/-- reading `front` ends between two blocks, where `found` have been found, last one first -/
structure Between (line : Nat) (front : Text) (found : List Block) : Prop where
  place : (run (start line) front).place = .between
  blocks : (run (start line) front).blocks = found

/-- what is being collected at a place is the end of the text read, `u`, and began between two blocks -/
def Place.Anchored (line : Nat) (u : Text) (found : List Block) : Place → Prop
  | .between => True
  | .before _ seen => ∃ front, u = front ++ seen.reverse ∧ Between line front found
  | .within p _ _ _ seen => ∃ front, u = front ++ (p ++ '{' :: seen.reverse) ∧ Between line front found

/-- so did each block, where those in front of it had been found -/
def AllAnchored (line : Nat) (u : Text) (found : List Block) : Prop :=
  ∀ later b earlier, found = later ++ b :: earlier →
    ∃ front v, u = front ++ (b.prelude ++ '{' :: b.body ++ ['}']) ++ v ∧ Between line front earlier

theorem AllAnchored.append {line : Nat} {u : Text} {found : List Block} (h : AllAnchored line u found) (w : Text) :
    AllAnchored line (u ++ w) found := by
  intro later b earlier hparts
  obtain ⟨front, v, hu, hfront⟩ := h later b earlier hparts
  exact ⟨front, v ++ w, by rw [hu, List.append_assoc], hfront⟩

section
variable {line : Nat} {u : Text} {s : St} (hbetween : s.place = .between → Between line u s.blocks)
  (hplace : s.place.Anchored line u s.blocks)
include hplace

theorem anchored_semicolon :
    (semicolon s).blocks = s.blocks ∧ (semicolon s).place.Anchored line (u ++ [';']) s.blocks := by
  unfold semicolon
  rcases hp : s.place with _ | ⟨l, seen⟩ | ⟨p, l, o, d, seen⟩ <;> rw [hp] at hplace
  · exact ⟨rfl, by rw [hp]; trivial⟩
  · exact ⟨rfl, trivial⟩
  · obtain ⟨front, rfl, hfront⟩ := hplace
    exact ⟨rfl, front, by simp, hfront⟩

/-- a block that is closed began where it was opened -/
theorem anchored_closeBrace (hall : AllAnchored line u s.blocks) :
    (closeBrace s).place.Anchored line (u ++ ['}']) (closeBrace s).blocks ∧
      AllAnchored line (u ++ ['}']) (closeBrace s).blocks := by
  unfold closeBrace
  rcases hp : s.place with _ | ⟨l, seen⟩ | ⟨p, l, o, _ | d, seen⟩ <;> rw [hp] at hplace
  · exact ⟨trivial, hall.append _⟩
  · exact ⟨trivial, hall.append _⟩
  · refine ⟨trivial, ?_⟩
    intro later b earlier hparts
    rcases later with _ | ⟨b', later⟩
    · obtain ⟨rfl, rfl⟩ := List.cons.inj hparts
      obtain ⟨front, rfl, hfront⟩ := hplace
      exact ⟨front, [], by simp, hfront⟩
    · obtain ⟨-, hparts⟩ := List.cons.inj hparts
      exact hall.append _ later b earlier hparts
  · obtain ⟨front, rfl, hfront⟩ := hplace
    exact ⟨⟨front, by simp, hfront⟩, hall.append _⟩

include hbetween

/-- a character that is only collected begins something at most -/
theorem anchored_keep (c : Char) : (s.place.keep s.line c).Anchored line (u ++ [c]) s.blocks := by
  rcases hp : s.place with _ | ⟨l, seen⟩ | ⟨p, l, o, d, seen⟩ <;> rw [hp] at hbetween hplace
  · rw [Place.keep]
    split
    · trivial
    · exact ⟨u, rfl, hbetween rfl⟩
  · obtain ⟨front, rfl, hfront⟩ := hplace
    exact ⟨front, by simp, hfront⟩
  · obtain ⟨front, rfl, hfront⟩ := hplace
    exact ⟨front, by simp, hfront⟩

theorem anchored_openBrace : (openBrace s).place.Anchored line (u ++ ['{']) s.blocks := by
  unfold openBrace
  rcases hp : s.place with _ | ⟨l, seen⟩ | ⟨p, l, o, d, seen⟩ <;> rw [hp] at hbetween hplace
  · exact ⟨u, rfl, hbetween rfl⟩
  · obtain ⟨front, rfl, hfront⟩ := hplace
    exact ⟨front, by simp, hfront⟩
  · obtain ⟨front, rfl, hfront⟩ := hplace
    exact ⟨front, by simp, hfront⟩

/-- what one character does to the place and the blocks -/
theorem anchored_act (hall : AllAnchored line u s.blocks) (c : Char) :
    (act s c).place.Anchored line (u ++ [c]) (act s c).blocks ∧ AllAnchored line (u ++ [c]) (act s c).blocks := by
  rw [act_eq]
  cases hm : Mark.ofChar? s.quoting c with
  | none => exact ⟨anchored_keep hbetween hplace c, hall.append _⟩
  | some m =>
    cases m with
    | opens =>
      obtain ⟨-, rfl⟩ := ofChar?_some hm
      exact ⟨anchored_openBrace hbetween hplace, hall.append _⟩
    | closes =>
      obtain ⟨-, rfl⟩ := ofChar?_some hm
      exact anchored_closeBrace hplace hall
    | ends =>
      obtain ⟨-, rfl⟩ := ofChar?_some hm
      obtain ⟨hblocks, hend⟩ := anchored_semicolon hplace
      have hsame : (semicolon s).place.Anchored line (u ++ [';']) (semicolon s).blocks ∧
          AllAnchored line (u ++ [';']) (semicolon s).blocks := by
        rw [hblocks]
        exact ⟨hend, hall.append _⟩
      exact hsame
    | cut => exact ⟨anchored_keep hbetween hplace c, hall.append _⟩

end

/-- **Everything that has been read of a block began between two blocks.** -/
theorem anchored_run (line : Nat) (u : Text) :
    (run (start line) u).place.Anchored line u (run (start line) u).blocks ∧
      AllAnchored line u (run (start line) u).blocks := by
  induction u using List.reverseRecOn with
  | nil =>
    refine ⟨trivial, ?_⟩
    intro later b earlier hparts
    cases later <;> cases hparts
  | append_singleton u c ih =>
    rw [run_append]
    exact anchored_act (fun hp => ⟨hp, rfl⟩) ih.1 ih.2 c

/-- **Reading a block between two others** finds it; ASCII blanks in front of its prelude are left out. -/
theorem blocks_block {line : Nat} {front p b : Text} {found : List Block} (h : Between line front found)
    (hp : IsPrelude p) (hb : IsBody b) (v : Text) : ∃ o later,
    (scan line (front ++ (p ++ '{' :: b ++ ['}']) ++ v)).blocks = found.reverse ++
      ⟨p.dropWhile isAsciiBlank, b, line + newlines front + newlines (p.takeWhile isAsciiBlank), o⟩ :: later := by
  have hholds := holds_run line front
  have hcode : (run (start line) front).quoting = code := by
    have hplace := hholds.place
    rw [h.place] at hplace
    exact hholds.quoting.trans hplace
  have hline := line_run (start line) front
  obtain ⟨hbetween, hfound⟩ := h
  obtain ⟨later, hlater⟩ := blocks_run (run (start line) (front ++ (p ++ '{' :: b ++ ['}']))) v
  have hwell : (Item.block p b).WellFormed := ⟨hp, hb⟩
  have hblocks : (run (start line) (front ++ (p ++ '{' :: b ++ ['}']))).blocks =
      ⟨p.dropWhile isAsciiBlank, b, line + newlines front + newlines (p.takeWhile isAsciiBlank),
        line + newlines front + newlines p⟩ :: found := by
    rw [run_append]
    generalize run (start line) front = s at hbetween hfound hcode hline
    obtain ⟨quoting, l, place, blocks, issues, statements⟩ := s
    obtain rfl : quoting = code := hcode
    obtain rfl : l = line + newlines front := hline
    obtain rfl : place = .between := hbetween
    obtain rfl : blocks = found := hfound
    exact congrArg St.blocks (Item.run_item hwell (line + newlines front) statements blocks issues)
  refine ⟨line + newlines front + newlines p, later.reverse, ?_⟩
  calc (scan line (front ++ (p ++ '{' :: b ++ ['}']) ++ v)).blocks
      = (run (run (start line) (front ++ (p ++ '{' :: b ++ ['}']))) v).blocks.reverse := by
        rw [← run_append]
        rfl
    _ = (later ++ (_ :: found)).reverse := by rw [← hlater, hblocks]
    _ = _ := by simp

end Block

/-- the visible text is what a parse reads, and stands on its own lines -/
theorem Comment.reads_kept (t : Text) :
    text (kept (start 1) [] (ofText t)) = strip t ∧ Reads t 1 (kept (start 1) [] (ofText t)) := by
  have hheld : text [] = (start 1).place.held := rfl
  obtain ⟨htext, hkeeps⟩ := kept_spec hheld (ofText t)
  rw [text_ofText] at htext
  exact ⟨htext, hkeeps.reads (reads_ofText t)⟩

/-! ## Where rules stand -/

/-- a block in the visible text of a sheet -/
structure Layout where
  front : Trace
  prelude : Trace
  opener : Site
  body : Trace
  closer : Site
  back : Trace
  deriving DecidableEq, Repr

namespace Layout

/-- the visible text -/
def trace (l : Layout) : Trace := l.front ++ (l.prelude ++ l.opener :: l.body ++ [l.closer]) ++ l.back

variable (config : ParseConfig) (source : SourceId)

/-- `l` shows where `r`, a rule of the parse of `t`, stands in `t` -/
structure Shows (t : Text) (r : Rule) (l : Layout) : Prop where
  visible : Comment.kept (Comment.start 1) [] (ofText t) = l.trace
  closed : (Block.run (Block.start 1) (text l.front)).place = .between
  earlier : (Stylesheet.rulesOf config source (Block.scan 1 (text l.front)).blocks).length = r.position
  isPrelude : Block.IsPrelude (text l.prelude)
  opener : l.opener.char = '{'
  isBody : Block.IsBody (text l.body)
  closer : l.closer.char = '}'
  selector : Selector.normalize (text l.prelude) = r.selector
  body : trim (text l.body) = r.body

instance (t : Text) (r : Rule) (l : Layout) : Decidable (l.Shows config source t r) :=
  decidable_of_iff (Comment.kept (Comment.start 1) [] (ofText t) = l.trace ∧
    (Block.run (Block.start 1) (text l.front)).place = .between ∧
    (Stylesheet.rulesOf config source (Block.scan 1 (text l.front)).blocks).length = r.position ∧
    Block.IsPrelude (text l.prelude) ∧ l.opener.char = '{' ∧ Block.IsBody (text l.body) ∧ l.closer.char = '}' ∧
    Selector.normalize (text l.prelude) = r.selector ∧ trim (text l.body) = r.body)
    ⟨fun ⟨h1, h2, h3, h4, h5, h6, h7, h8, h9⟩ => ⟨h1, h2, h3, h4, h5, h6, h7, h8, h9⟩,
      fun ⟨h1, h2, h3, h4, h5, h6, h7, h8, h9⟩ => ⟨h1, h2, h3, h4, h5, h6, h7, h8, h9⟩⟩

/-- the character that begins the prelude -/
def begun? (l : Layout) : Option Site := (l.prelude.dropWhile fun s => isAsciiBlank s.char).head?

/-- the character that begins the selector -/
def first? (l : Layout) : Option Site := (l.prelude.dropWhile fun s => isBlank s.char).head?

/-- blanks beyond ASCII, and what blanks follow them, in front of the selector -/
def lead (l : Layout) : Text := ((text l.prelude).dropWhile isAsciiBlank).takeWhile isBlank

end Layout

namespace Stylesheet

variable {config : ParseConfig} {source : SourceId}

/-! ## Rules and their blocks -/

theorem position_of_mem_numbered {n : Nat} {rules : List Rule} {r : Rule} (h : r ∈ numbered n rules) :
    n ≤ r.position ∧ r.position < n + rules.length := by
  have hmem : r.position ∈ (numbered n rules).map (·.position) := List.mem_map_of_mem h
  rwa [positions_numbered, List.mem_range'_1] at hmem

/-- every rule is that of a block, and its position the number of rules in front of this block -/
theorem exists_block_of_mem {n : Nat} {blocks : List Block} {r : Rule}
    (h : r ∈ numbered n (rulesOf config source blocks)) :
    ∃ earlier b later, blocks = earlier ++ b :: later ∧ r.position = n + (rulesOf config source earlier).length ∧
      b.toRule? config source r.position = some r := by
  induction blocks generalizing n with
  | nil => cases h
  | cons b blocks ih =>
    cases hb : b.toRule? config source 0 with
    | none =>
      rw [rulesOf, List.filterMap_cons_none hb] at h
      obtain ⟨earlier, b', later, rfl, hposition, hrule⟩ := ih h
      refine ⟨b :: earlier, b', later, rfl, ?_, hrule⟩
      rw [hposition, rulesOf, rulesOf, List.filterMap_cons_none hb]
    | some r' =>
      rw [rulesOf, List.filterMap_cons_some hb, numbered_cons] at h
      rcases List.mem_cons.1 h with rfl | h
      · refine ⟨[], b, blocks, rfl, rfl, ?_⟩
        rw [toRule?_position, hb]
        rfl
      · obtain ⟨earlier, b', later, rfl, hposition, hrule⟩ := ih h
        have hlength : (rulesOf config source (b :: earlier)).length = (rulesOf config source earlier).length + 1 :=
          congrArg List.length (List.filterMap_cons_some hb)
        refine ⟨b :: earlier, b', later, rfl, ?_, hrule⟩
        rw [hposition, hlength]
        omega

/-- the rule at the position of a block is that of the block -/
theorem rule_of_position {earlier later : List Block} {b : Block} {r r' : Rule}
    (hb : b.toRule? config source 0 = some r')
    (hr : r ∈ numbered 0 (rulesOf config source (earlier ++ b :: later)))
    (hposition : (rulesOf config source earlier).length = r.position) : r = { r' with position := r.position } := by
  have hrules : rulesOf config source (earlier ++ b :: later) =
      rulesOf config source earlier ++ r' :: rulesOf config source later := by
    rw [rulesOf, List.filterMap_append, List.filterMap_cons_some hb]
    rfl
  rw [hrules, numbered_append, numbered_cons] at hr
  rcases List.mem_append.1 hr with hr | hr
  · have hbound := position_of_mem_numbered hr
    omega
  · rcases List.mem_cons.1 hr with rfl | hr
    · rfl
    · have hbound := position_of_mem_numbered hr
      omega

/-! ## Layouts of rules -/

variable {t : Text} {r : Rule} (hr : r ∈ (parse config source t).rules)
include hr

theorem mem_numbered_of_mem_parse :
    r ∈ numbered 0 (rulesOf config source (Block.scan 1 (Comment.strip t)).blocks) := by
  have hrules := (parseAt_strip source 1 (size_of_mem_parseAt hr)).1
  exact hrules ▸ hr

/-- **Every rule has a layout.** -/
theorem exists_layout : ∃ l, Layout.Shows config source t r l := by
  obtain ⟨earlier, b, later, hblocks, hposition, hrule⟩ := exists_block_of_mem (mem_numbered_of_mem_parse hr)
  have hmem : b ∈ (Block.scan 1 (Comment.strip t)).blocks := by simp [hblocks]
  obtain ⟨hprelude, hbody, -⟩ := Block.mem_scan hmem
  have hfound : (Block.run (Block.start 1) (Comment.strip t)).blocks = later.reverse ++ b :: earlier.reverse := by
    rw [← List.reverse_reverse (Block.run _ _).blocks]
    exact (congrArg List.reverse hblocks).trans (by simp)
  obtain ⟨front, v, hparts, hbetween⟩ := (Block.anchored_run 1 (Comment.strip t)).2 _ _ _ hfound
  have hearlier : (Block.scan 1 front).blocks = earlier :=
    (congrArg List.reverse hbetween.blocks).trans (List.reverse_reverse earlier)
  rw [← (Comment.reads_kept t).1] at hparts
  obtain ⟨x, back, hkept, hx, -⟩ := List.map_eq_append_iff.1 hparts
  obtain ⟨front', x, rfl, hfront, hx⟩ := List.map_eq_append_iff.1 hx
  obtain ⟨x, y, rfl, hx, hy⟩ := List.map_eq_append_iff.1 hx
  obtain ⟨prelude, x, rfl, hp, hx⟩ := List.map_eq_append_iff.1 hx
  obtain ⟨opener, body, rfl, hopener, hb⟩ := List.map_eq_cons_iff.1 hx
  obtain ⟨closer, rfl, hcloser⟩ := List.map_eq_singleton_iff.1 hy
  obtain ⟨hselector, -, htrim, -, -⟩ := of_toRule? hrule
  have hfront : text front' = front := hfront
  have hp : text prelude = b.prelude := hp
  have hb : text body = b.body := hb
  refine ⟨⟨front', prelude, opener, body, closer, back⟩, hkept, ?_, ?_, ?_, hopener, ?_, hcloser, ?_, ?_⟩
  · rw [hfront]
    exact hbetween.place
  · rw [hfront, hearlier, hposition, Nat.zero_add]
  · rw [hp]
    exact hprelude
  · rw [hb]
    exact hbody
  · rw [hp, hselector]
  · rw [hb, htrim]

variable {l : Layout} (hl : l.Shows config source t r)
include hl

/-- **Reading a layout finds the rule**, on the line that is reached behind the ASCII blanks of the prelude. -/
theorem line_of_shows :
    r.line = 1 + newlines (text l.front) + newlines ((text l.prelude).takeWhile isAsciiBlank) := by
  have hparts : Comment.strip t =
      text l.front ++ (text l.prelude ++ '{' :: text l.body ++ ['}']) ++ text l.back := by
    rw [← (Comment.reads_kept t).1, hl.visible, Layout.trace]
    simp [hl.opener, hl.closer]
  obtain ⟨o, later, hblocks⟩ := Block.blocks_block ⟨hl.closed, rfl⟩ hl.isPrelude hl.isBody (text l.back)
  have hparsed := (isParsed_parse config source t).rule hr
  have hselector : Selector.normalize ((text l.prelude).dropWhile isAsciiBlank) ≠ [] := by
    rw [Item.normalize_dropWhile, hl.selector]
    exact hparsed.selector
  have hbody : trim (text l.body) ≠ [] := by
    rw [hl.body]
    exact hparsed.body
  have hmem := mem_numbered_of_mem_parse hr
  rw [hparts, hblocks] at hmem
  rw [rule_of_position (toRule?_of_visible config source hselector hbody) hmem hl.earlier]

end Stylesheet

/-! ## Lines of preludes -/

/-- the part behind the characters of a class in front -/
theorem Trace.Reads.dropWhile {t : Text} {line : Nat} {w : Trace} (h : Reads t line w) (p : Char → Bool) :
    Reads t (line + newlines ((text w).takeWhile p)) (w.dropWhile fun s => p s.char) := by
  have hlead : (text w).takeWhile p = text (w.takeWhile fun s => p s.char) := List.takeWhile_map
  rw [← List.takeWhile_append_dropWhile (p := fun s => p s.char) (l := w)] at h
  rw [hlead]
  exact h.behind

namespace Layout

variable {config : ParseConfig} {source : SourceId} {t : Text} {r : Rule} {l : Layout}

/-- the prelude is read from the line that is reached in front of it -/
theorem Shows.reads_prelude (h : l.Shows config source t r) : Reads t (1 + newlines (text l.front)) l.prelude := by
  have hreads : Reads t 1 l.trace := h.visible ▸ (Comment.reads_kept t).2
  unfold Layout.trace at hreads
  have hblock := hreads.front.behind
  rw [List.append_assoc] at hblock
  exact hblock.front

/-- behind ASCII blanks, blanks go on as they do from the start -/
theorem dropWhile_dropWhile (w : Trace) :
    ((w.dropWhile fun s => isAsciiBlank s.char).dropWhile fun s => isBlank s.char) =
      w.dropWhile fun s => isBlank s.char := by
  have hblank : ∀ s ∈ w.takeWhile (fun s => isAsciiBlank s.char), isBlank s.char = true := by
    intro s hs
    exact blank_of_asciiBlank (List.mem_takeWhile_imp (p := fun s : Site => isAsciiBlank s.char) hs)
  calc ((w.dropWhile fun s => isAsciiBlank s.char).dropWhile fun s => isBlank s.char)
      = (w.takeWhile (fun s => isAsciiBlank s.char) ++ w.dropWhile fun s => isAsciiBlank s.char).dropWhile
          fun s => isBlank s.char := (List.dropWhile_append_of_pos hblank).symm
    _ = w.dropWhile fun s => isBlank s.char := by rw [List.takeWhile_append_dropWhile]

/-- the prelude of a rule is not blank -/
theorem Shows.visible_prelude (h : l.Shows config source t r) (hselector : r.selector ≠ []) :
    (l.prelude.dropWhile fun s => isBlank s.char) ≠ [] := by
  intro hnil
  have hblank : Blank (text l.prelude) := by
    rw [List.dropWhile_eq_nil_iff] at hnil
    intro c hc
    obtain ⟨s, hs, rfl⟩ := List.mem_map.1 hc
    exact hnil s hs
  have hempty : Selector.normalize (text l.prelude) = [] := by
    rw [← List.append_nil (text l.prelude), Selector.normalize_append hblank]
    rfl
  exact hselector (h.selector.symm.trans hempty)

end Layout

/-- **The line of a rule is that of the character that begins its prelude**, the first one outside comments that is no
ASCII blank. It is the line of its selector unless a line feed stands in front of the selector and behind a blank beyond
ASCII. -/
theorem Stylesheet.line_of_mem_parse {config : ParseConfig} {source : SourceId} {t : Text} {r : Rule}
    (hr : r ∈ (parse config source t).rules) :
    (∃ l, Layout.Shows config source t r l) ∧
    ∀ l, Layout.Shows config source t r l → ∃ begun first, l.begun? = some begun ∧ l.first? = some first ∧
      r.line = lineOf t begun.index ∧ (r.line = lineOf t first.index ↔ '\n' ∉ l.lead) := by
  refine ⟨exists_layout hr, ?_⟩
  intro l hl
  have hbegun := hl.reads_prelude.dropWhile isAsciiBlank
  have hfirst := hbegun.dropWhile isBlank
  have hvisible := hl.visible_prelude ((isParsed_parse config source t).rule hr).selector
  have hlead : (text (l.prelude.dropWhile fun s => isAsciiBlank s.char)).takeWhile isBlank = l.lead :=
    congrArg (List.takeWhile isBlank) (List.dropWhile_map (f := Site.char) (p := isAsciiBlank)).symm
  rw [Layout.dropWhile_dropWhile, hlead, ← line_of_shows hr hl] at hfirst
  rw [← line_of_shows hr hl] at hbegun
  have hne : (l.prelude.dropWhile fun s => isAsciiBlank s.char) ≠ [] := by
    intro hnil
    rw [← Layout.dropWhile_dropWhile, hnil] at hvisible
    exact hvisible rfl
  obtain ⟨-, begun, hhead, hline⟩ := hbegun.standsAt hne
  obtain ⟨-, first, hhead', hline'⟩ := hfirst.standsAt hvisible
  refine ⟨begun, first, hhead, hhead', hline, ?_⟩
  rw [← hline', ← newlines_eq_zero_iff]
  omega

/-- a statement, a stray brace and a comment in front of a prelude that a vertical tab begins; the selector is behind
another comment, one line further down, and holds an escaped brace and one in a literal -/
def tabbedText : Text :=
  "@i;\x7d/*\n*/\r\n\x0b\n/**/ .a\\\x7b > '\x7d' /*\x7b*/ \x7b b: c \x7d\n~\x7be:f\x7d".toList

def tabbedRule : Rule where
  selector := ".a\\\x7b > '\x7d'".toList
  body := "b: c".toList
  source := ⟨0⟩
  position := 0
  kind := .plain
  line := 3
  bodyLine := 4

def tabbedLayout : Layout :=
  let seen := Comment.kept (Comment.start 1) [] (ofText tabbedText)
  ⟨seen.take 4, (seen.take 22).drop 4, ⟨'{', 35⟩, (seen.take 29).drop 23, ⟨'}', 42⟩, seen.drop 30⟩

theorem line_of_mem_parse_tabbed :
    tabbedRule ∈ (Stylesheet.parse {} ⟨0⟩ tabbedText).rules ∧ tabbedLayout.Shows {} ⟨0⟩ tabbedText tabbedRule ∧
    tabbedLayout.begun? = some ⟨'\x0b', 11⟩ ∧ tabbedLayout.first? = some ⟨'.', 18⟩ ∧
    tabbedRule.line = lineOf tabbedText 11 ∧ tabbedRule.line ≠ lineOf tabbedText 18 := by
  have hr : tabbedRule ∈ (Stylesheet.parse {} ⟨0⟩ tabbedText).rules := by decide +kernel
  have hl : tabbedLayout.Shows {} ⟨0⟩ tabbedText tabbedRule := by decide +kernel
  have hsites : tabbedLayout.begun? = some ⟨'\x0b', 11⟩ ∧ tabbedLayout.first? = some ⟨'.', 18⟩ := by decide +kernel
  have hlead : '\n' ∈ tabbedLayout.lead := by decide +kernel
  obtain ⟨-, hall⟩ := Stylesheet.line_of_mem_parse hr
  obtain ⟨begun, first, hbegun, hfirst, hline, hselector⟩ := hall tabbedLayout hl
  obtain rfl := Option.some.inj (hsites.1.symm.trans hbegun)
  obtain rfl := Option.some.inj (hsites.2.symm.trans hfirst)
  exact ⟨hr, hl, hbegun, hfirst, hline, fun hsame => hselector.1 hsame hlead⟩

/-- a selector on the line behind a no-break space -/
def spacedText : Text := "\u00a0\n.a \x7b b: c \x7d".toList

def spacedRule : Rule := ⟨".a".toList, "b: c".toList, ⟨0⟩, 0, .plain, 1, 2⟩

def spacedLayout : Layout :=
  let sites := ofText spacedText
  ⟨[], sites.take 5, ⟨'{', 5⟩, (sites.take 12).drop 6, ⟨'}', 12⟩, []⟩

/-- blanks beyond ASCII begin a prelude, so the line of a rule need not be that of its selector -/
theorem line_before_selector :
    ¬∀ (config : ParseConfig) (source : SourceId) (t : Text) (r : Rule) (l : Layout) (first : Site),
      byteSize t ≤ config.maxInputSize → r ∈ (Stylesheet.parse config source t).rules →
      l.Shows config source t r → l.first? = some first → r.line = 1 + newlines (t.take first.index) := by
  intro h
  have hline := h {} ⟨0⟩ spacedText spacedRule spacedLayout ⟨'.', 2⟩ (by decide +kernel) (by decide +kernel)
    (by decide +kernel) (by decide +kernel)
  exact absurd hline (by decide +kernel)

end StyleCheck
