/-
What a well-formed stylesheet is read as.

A well-formed stylesheet is a sequence of items, blocks and statements (`Item`), each with a text of its own. Reading
the text of an item between two blocks adds its block, if it is one, counts its statement, if it is one, and reports its
cut literals (`Quoting.cuts`) and nothing else.
- `run_prelude`, `run_within`: reading a prelude and a body;
- `run_item`: reading an item;
- `scan_items`: reading a sequence of items with ASCII blanks behind it.
-/
import StyleCheck.Proofs.Parse.Blocks

namespace StyleCheck

namespace Quoting

/-- the issues of the cut literals in a text that begins on line `line` -/
def cuts (line : Nat) (q : Quoting) : Text → List Issue
  | [] => []
  | c :: t =>
    (if Mark.ofChar? q c = some .cut then [⟨.unterminatedString, line⟩] else []) ++
      cuts (line + Text.newlines [c]) (q.next c) t

theorem cuts_append (line : Nat) (q : Quoting) (a b : Text) :
    cuts line q (a ++ b) = cuts line q a ++ cuts (line + Text.newlines a) (q.run a) b := by
  induction a generalizing line q with
  | nil => rfl
  | cons c a ih =>
    simp only [List.cons_append, cuts, ih, List.append_assoc, run_cons, Text.newlines_cons c a, Nat.add_assoc]

theorem cuts_eq_nil {q : Quoting} {t : Text} (h : .cut ∉ q.marks t) (line : Nat) : cuts line q t = [] := by
  induction t generalizing line q with
  | nil => rfl
  | cons c t ih =>
    rw [marks_cons, List.mem_append, not_or, Option.mem_toList] at h
    rw [cuts, if_neg h.1, ih h.2, List.append_nil]

end Quoting

namespace Block

open Quoting Text

theorem run_cons (s : St) (c : Char) (t : Text) : run s (c :: t) = run (step s c) t := rfl

theorem line_next (line : Nat) (c : Char) : (if c = '\n' then line + 1 else line) = line + newlines [c] := by
  by_cases h : c = '\n' <;> simp [newlines, h]

/-! ## Reading one character -/

section
variable {q : Quoting} {c : Char} (line n : Nat) (blocks : List Block) (issues : List Issue)

/-- a character without a mark, or with that of a cut, is collected -/
theorem step_keep (hc : ∀ m ∈ Mark.ofChar? q c, m = .cut) (p : Place) :
    step ⟨q, line, p, blocks, issues, n⟩ c =
      ⟨q.next c, line + newlines [c], p.keep line c, blocks, (cuts line q [c]).reverse ++ issues, n⟩ := by
  unfold step
  rw [act_eq]
  simp only [line_next, cuts]
  cases hm : Mark.ofChar? q c with
  | none => rfl
  | some m =>
    obtain rfl := hc m hm
    rfl

/-- a character in a block is collected, and changes the depth as its mark says -/
theorem step_within {d e : Nat} (hd : Mark.depth? d (Mark.ofChar? q c).toList = some e) (p seen : Text) (l o : Nat) :
    step ⟨q, line, .within p l o d seen, blocks, issues, n⟩ c =
      ⟨q.next c, line + newlines [c], .within p l o e (c :: seen), blocks, (cuts line q [c]).reverse ++ issues, n⟩ := by
  cases hm : Mark.ofChar? q c with
  | none =>
    obtain rfl : d = e := by simpa [hm, Mark.depth?] using hd
    exact step_keep line n blocks issues (by simp [hm]) _
  | some m =>
    unfold step
    rw [act_eq]
    simp only [line_next, cuts, hm] at hd ⊢
    have hc := ofChar?_some hm
    cases m with
    | opens =>
      obtain ⟨rfl, rfl⟩ := hc
      obtain rfl : d + 1 = e := by simpa [Mark.depth?] using hd
      rfl
    | closes =>
      obtain ⟨rfl, rfl⟩ := hc
      cases d with
      | zero => simp [Mark.depth?] at hd
      | succ d =>
        obtain rfl : d = e := by simpa [Mark.depth?] using hd
        rfl
    | ends =>
      obtain ⟨rfl, rfl⟩ := hc
      obtain rfl : d = e := by simpa [Mark.depth?] using hd
      rfl
    | cut =>
      obtain rfl : d = e := by simpa [Mark.depth?] using hd
      rfl

/-! ## Reading a prelude and a body -/

variable {t : Text}

theorem run_before (ht : ∀ m ∈ q.marks t, m = .cut) (l : Nat) (seen : Text) :
    run ⟨q, line, .before l seen, blocks, issues, n⟩ t =
      ⟨q.run t, line + newlines t, .before l (t.reverse ++ seen), blocks, (cuts line q t).reverse ++ issues, n⟩ := by
  induction t generalizing q line issues seen with
  | nil => rfl
  | cons c t ih =>
    rw [marks_cons, List.forall_mem_append] at ht
    rw [run_cons, step_keep line n blocks issues (by simpa using ht.1) _]
    simp only [Place.keep]
    rw [ih _ _ ht.2, newlines_cons c t]
    simp [cuts, Nat.add_assoc]

theorem run_within {d e : Nat} (ht : Mark.depth? d (q.marks t) = some e) (p : Text) (l o : Nat) (seen : Text) :
    run ⟨q, line, .within p l o d seen, blocks, issues, n⟩ t =
      ⟨q.run t, line + newlines t, .within p l o e (t.reverse ++ seen), blocks,
        (cuts line q t).reverse ++ issues, n⟩ := by
  induction t generalizing q line issues d seen with
  | nil =>
    obtain rfl : d = e := by simpa [Mark.depth?] using ht
    rfl
  | cons c t ih =>
    rw [marks_cons, Mark.depth?_append] at ht
    obtain ⟨d', hc, ht⟩ := Option.bind_eq_some_iff.1 ht
    rw [run_cons, step_within line n blocks issues hc, ih _ _ ht, newlines_cons c t]
    simp [cuts, Nat.add_assoc]

/-- where a text leaves us that began between two blocks on line `line` -/
def begun (line : Nat) (p : Text) : Place :=
  if p.dropWhile isAsciiBlank = [] then .between
  else .before (line + newlines (p.takeWhile isAsciiBlank)) (p.dropWhile isAsciiBlank).reverse

theorem next_asciiBlank (hc : isAsciiBlank c = true) : Mark.ofChar? code c = none ∧ code.next c = code := by
  rcases isAsciiBlank_iff.1 hc with rfl | rfl | rfl | rfl | rfl <;> decide

/-- ASCII blanks in front of a prelude are left out -/
theorem run_prelude (ht : ∀ m ∈ code.marks t, m = .cut) :
    run ⟨code, line, .between, blocks, issues, n⟩ t =
      ⟨code.run t, line + newlines t, begun line t, blocks, (cuts line code t).reverse ++ issues, n⟩ := by
  induction t generalizing line with
  | nil => rfl
  | cons c t ih =>
    have h := ht
    rw [marks_cons, List.forall_mem_append] at h
    by_cases hb : isAsciiBlank c = true
    · obtain ⟨hm, hn⟩ := next_asciiBlank hb
      rw [hn] at h
      have hs : step ⟨code, line, .between, blocks, issues, n⟩ c =
          ⟨code, line + newlines [c], .between, blocks, issues, n⟩ := by
        rw [step_keep line n blocks issues (by simp [hm]), hn]
        simp [Place.keep, hb, cuts, hm]
      rw [run_cons, hs, ih (line + newlines [c]) h.2, newlines_cons c t]
      simp [begun, hb, cuts, hm, hn, Nat.add_assoc, newlines_cons c (t.takeWhile isAsciiBlank)]
    · -- from here on the text is collected, as it would be with nothing collected before
      have hs : step ⟨code, line, .between, blocks, issues, n⟩ c =
          step ⟨code, line, .before line [], blocks, issues, n⟩ c := by
        rw [step_keep line n blocks issues (by simpa using h.1), step_keep line n blocks issues (by simpa using h.1)]
        simp [Place.keep, hb]
      rw [run_cons, hs, ← run_cons, run_before line n blocks issues ht]
      simp [begun, hb]

end

end Block

/-! ## Items -/

/-- a part of a stylesheet at depth zero -/
inductive Item where
  | block (prelude body : Text)
  | statement (text : Text)
  deriving DecidableEq, Repr

namespace Item

open Text Quoting Block

/-- an item as it is written -/
def text : Item → Text
  | block p b => p ++ '{' :: b ++ ['}']
  | statement p => p ++ [';']

/-- whether the text of an item is read as that item -/
def WellFormed : Item → Prop
  | block p b => IsPrelude p ∧ IsBody b
  | statement p => IsPrelude p ∧ ¬ AsciiBlank p

instance : (i : Item) → Decidable i.WellFormed
  | block p b => inferInstanceAs (Decidable (IsPrelude p ∧ IsBody b))
  | statement p => inferInstanceAs (Decidable (IsPrelude p ∧ ¬ AsciiBlank p))

/-- the block of an item that begins on line `line`; blanks in front of it are not part of it -/
def block? (line : Nat) : Item → Option Block
  | block p b =>
    some ⟨p.dropWhile isAsciiBlank, b, line + newlines (p.takeWhile isAsciiBlank), line + newlines p⟩
  | statement _ => none

def isStatement : Item → Bool
  | block _ _ => false
  | statement _ => true

theorem step_begun (line n : Nat) (p : Text) (blocks : List Block) (issues : List Issue) :
    step ⟨code, line + newlines p, begun line p, blocks, issues, n⟩ '{' =
      ⟨code, line + newlines p, .within (p.dropWhile isAsciiBlank) (line + newlines (p.takeWhile isAsciiBlank))
        (line + newlines p) 0 [], blocks, issues, n⟩ := by
  unfold begun
  split
  · rename_i h
    have hp : p.takeWhile isAsciiBlank = p := by
      have := List.takeWhile_append_dropWhile (p := isAsciiBlank) (l := p)
      rwa [h, List.append_nil] at this
    rw [h, hp]
    rfl
  · have hs (k : Nat) (seen : Text) :
        step ⟨code, line + newlines p, .before k seen, blocks, issues, n⟩ '{' =
          ⟨code, line + newlines p, .within seen.reverse k (line + newlines p) 0 [], blocks, issues, n⟩ := rfl
    rw [hs, List.reverse_reverse]

/-- blanks in front of a block are no part of its selector -/
theorem normalize_dropWhile (p : Text) : Selector.normalize (p.dropWhile isAsciiBlank) = Selector.normalize p := by
  have hb : Blank (p.takeWhile isAsciiBlank) := fun c hc => blank_of_asciiBlank (List.mem_takeWhile_imp hc)
  rw [← Selector.normalize_append hb, List.takeWhile_append_dropWhile]

theorem newlines_block (p b : Text) : newlines (p ++ '{' :: b ++ ['}']) = newlines p + newlines b := by
  simp [newlines]

theorem cuts_block {p b : Text} (hp : IsPrelude p) (hb : IsBody b) (line : Nat) :
    cuts line code (p ++ '{' :: b ++ ['}']) = cuts line code p ++ cuts (line + newlines p) code b := by
  have he (l : Nat) : cuts l code ['}'] = [] := rfl
  have ho (l : Nat) : cuts l code ('{' :: b) = cuts l code b := rfl
  rw [cuts_append, cuts_append, Quoting.run_append, hp.closed, Quoting.run_cons, next_brace, hb.closed, he, ho,
    List.append_nil]

theorem marks_block {p b : Text} (hp : IsPrelude p) (hb : IsBody b) :
    code.marks (p ++ '{' :: b ++ ['}']) = code.marks p ++ .opens :: code.marks b ++ [.closes] := by
  have ho : code.marks ('{' :: b) = .opens :: code.marks b := rfl
  have hc : code.marks ['}'] = [.closes] := rfl
  rw [marks_append, marks_append, Quoting.run_append, hp.closed, Quoting.run_cons _ '{' b, next_brace, hb.closed, ho,
    hc]

theorem WellFormed.closed {i : Item} (h : i.WellFormed) : code.run i.text = code := by
  cases i with
  | block p b =>
    obtain ⟨hp, hb⟩ := h
    simp only [text]
    rw [Quoting.run_append, Quoting.run_append, hp.closed, Quoting.run_cons _ '{' b, next_brace, hb.closed]
    decide
  | statement p =>
    obtain ⟨hp, -⟩ := h
    simp only [text]
    rw [Quoting.run_append, hp.closed]
    decide

/-- **Reading an item between two blocks** adds its block, counts its statement and reports its cut literals. -/
theorem run_item {i : Item} (h : i.WellFormed) (line n : Nat) (blocks : List Block) (issues : List Issue) :
    run ⟨code, line, .between, blocks, issues, n⟩ i.text =
      ⟨code, line + newlines i.text, .between, (i.block? line).toList ++ blocks,
        (cuts line code i.text).reverse ++ issues, n + if i.isStatement then 1 else 0⟩ := by
  cases i with
  | block p b =>
    obtain ⟨hp, hb⟩ := h
    have hclose (l k o m : Nat) (prelude seen : Text) (is : List Issue) :
        run ⟨code, l, .within prelude k o 0 seen, blocks, is, m⟩ ['}'] =
          ⟨code, l, .between, ⟨prelude, seen.reverse, k, o⟩ :: blocks, is, m⟩ := rfl
    simp only [text, block?, isStatement]
    rw [Block.run_append, Block.run_append, run_prelude line n blocks issues hp.bare, hp.closed, Block.run_cons _ '{' b,
      step_begun, run_within _ n blocks _ hb.balanced, hb.closed, hclose, newlines_block, cuts_block hp hb]
    simp [Nat.add_assoc]
  | statement p =>
    obtain ⟨hp, hvisible⟩ := h
    have hd : p.dropWhile isAsciiBlank ≠ [] := fun hd => hvisible (List.dropWhile_eq_nil_iff.1 hd)
    have hend (l k m : Nat) (seen : Text) (is : List Issue) :
        run ⟨code, l, .before k seen, blocks, is, m⟩ [';'] = ⟨code, l, .between, blocks, is, m + 1⟩ := rfl
    have hc (l : Nat) : cuts l code [';'] = [] := rfl
    simp only [text, block?, isStatement]
    rw [Block.run_append, run_prelude line n blocks issues hp.bare, hp.closed, begun, if_neg hd, hend, cuts_append,
      hp.closed, hc]
    simp [newlines]

/-! ## Sequences of items -/

def texts (items : List Item) : Text := items.flatMap text

/-- items stand on their own: the marks of a sequence are those of its members -/
theorem marks_texts {items : List Item} (h : ∀ i ∈ items, i.WellFormed) :
    code.marks (texts items) = items.flatMap fun i => code.marks i.text := by
  induction items with
  | nil => rfl
  | cons i items ih =>
    rw [texts, List.flatMap_cons, marks_append, (h i List.mem_cons_self).closed, List.flatMap_cons]
    exact congrArg _ (ih fun x hx => h x (List.mem_cons_of_mem _ hx))

theorem uncommented_block {p b : Text} (hp : IsPrelude p) (hb : IsBody b) (hup : code.Uncommented p)
    (hub : code.Uncommented b) : code.Uncommented (block p b).text := by
  have hbody : code.Uncommented ('{' :: b) := uncommented_cons.2 ⟨by simp, hub⟩
  have hclosed : code.run ('{' :: b) = code := hb.closed
  refine (hup.append (by rw [hp.closed]; exact hbody) (by simp)).append ?_ (by simp)
  rw [Quoting.run_append, hp.closed, hclosed]
  exact uncommented_cons.2 ⟨by simp, trivial⟩

/-- an item does not end in the first half of a comment opener -/
theorem getLast?_text (i : Item) : i.text.getLast? ≠ some '/' := by
  cases i <;> rw [text, List.getLast?_concat] <;> simp

theorem uncommented_texts {items : List Item} (h : ∀ i ∈ items, i.WellFormed ∧ code.Uncommented i.text) {g : Text}
    (hg : AsciiBlank g) : code.Uncommented (texts items ++ g) := by
  induction items with
  | nil =>
    have := (uncommented_append_blank (q := code) hg.blank []).2 trivial
    simpa [texts] using this
  | cons i items ih =>
    obtain ⟨hi, hu⟩ := h i List.mem_cons_self
    rw [texts, List.flatMap_cons, List.append_assoc]
    refine hu.append ?_ fun hl => absurd hl (getLast?_text i)
    rw [hi.closed]
    exact ih fun x hx => h x (List.mem_cons_of_mem _ hx)

def blocks (line : Nat) : List Item → List Block
  | [] => []
  | i :: items => (i.block? line).toList ++ blocks (line + newlines i.text) items

theorem run_items {items : List Item} (h : ∀ i ∈ items, i.WellFormed) (line n : Nat) (bs : List Block)
    (issues : List Issue) :
    run ⟨code, line, .between, bs, issues, n⟩ (texts items) =
      ⟨code, line + newlines (texts items), .between, (blocks line items).reverse ++ bs,
        (cuts line code (texts items)).reverse ++ issues, n + items.countP isStatement⟩ := by
  induction items generalizing line n bs issues with
  | nil => rfl
  | cons i items ih =>
    have ht : texts (i :: items) = i.text ++ texts items := List.flatMap_cons
    have hi := run_item (h i List.mem_cons_self) line n bs issues
    have hn :
        (n + if i.isStatement then 1 else 0) + items.countP isStatement = n + (i :: items).countP isStatement := by
      rw [List.countP_cons]
      omega
    rw [ht, Block.run_append, hi, ih fun x hx => h x (List.mem_cons_of_mem _ hx), cuts_append,
      (h i List.mem_cons_self).closed, hn]
    cases hb : i.block? line <;> simp [blocks, hb, Nat.add_assoc]

/-- **What a well-formed stylesheet is read as**: its blocks, its statements and its cut literals, in order. -/
theorem scan_items {items : List Item} (h : ∀ i ∈ items, i.WellFormed) {g : Text}
    (hg : AsciiBlank g) (line : Nat) :
    scan line (texts items ++ g) =
      ⟨blocks line items, cuts line code (texts items), none, items.countP isStatement⟩ := by
  have hgap : g.dropWhile isAsciiBlank = [] := List.dropWhile_eq_nil_iff.2 hg
  obtain ⟨hq, hm⟩ := run_code_blank hg.blank
  have hbare : ∀ m ∈ code.marks g, m = .cut := by simp [hm]
  unfold scan start
  rw [Block.run_append, run_items h, run_prelude _ _ _ _ hbare, begun, if_pos hgap, cuts_eq_nil (by simp [hm])]
  simp [St.finish]

end Item

end StyleCheck
