/-
Blocks as parts of the text they were found in.

The scanner looks at the marks of a text only: `act_eq` reads its step off the mark of a character. From this follows
what it holds at any point. A text being collected is the end of the text read, and begins in code; a text before a
brace makes no marks but cut literals (`IsPrelude`), a text in a block is balanced as far as it goes (`IsBody`). Every
cut literal has its issue.
- `holds_step`: the invariant that one character keeps; `holds_run`: so does every text;
- `mem_scan`: a block found is a prelude and a body, taken from the text as they stand;
- `uncut_of_issues`: where no issue reports a cut literal, there is none.
-/
import StyleCheck.Parse.Block
import StyleCheck.Proofs.Parse.Marks

namespace StyleCheck.Block

open Quoting

/-! ## One character -/

/-- the scanner looks at the mark of a character -/
theorem act_eq (s : St) (c : Char) :
    act s c = match Mark.ofChar? s.quoting c with
      | some .opens => openBrace s
      | some .closes => closeBrace s
      | some .ends => semicolon s
      | some .cut =>
        { s with place := s.place.keep s.line c, issues := ⟨.unterminatedString, s.line⟩ :: s.issues }
      | none => { s with place := s.place.keep s.line c } := by
  unfold act Mark.ofChar?
  split_ifs <;> rfl

theorem ofChar?_some {q : Quoting} {c : Char} {m : Mark} (h : Mark.ofChar? q c = some m) :
    match m with
    | .opens => q = code ∧ c = '{'
    | .closes => q = code ∧ c = '}'
    | .ends => q = code ∧ c = ';'
    | .cut => q.isCutBy c = true := by
  unfold Mark.ofChar? at h
  split_ifs at h with h1 h2 h3 h4 <;> cases h
  · exact ⟨(isCode_iff q).1 h1.1, h1.2⟩
  · exact ⟨(isCode_iff q).1 h2.1, h2.2⟩
  · exact ⟨(isCode_iff q).1 h3.1, h3.2⟩
  · exact h4

/-! ## What is found -/

/-- a text that can stand before a brace: it ends in code and makes no marks but cut literals -/
structure IsPrelude (p : Text) : Prop where
  bare : ∀ m ∈ code.marks p, m = .cut
  closed : code.run p = code

/-- a text that can stand in a block: it ends in code and its braces are balanced -/
structure IsBody (b : Text) : Prop where
  balanced : Mark.depth? 0 (code.marks b) = some 0
  closed : code.run b = code

instance (p : Text) : Decidable (IsPrelude p) :=
  decidable_of_iff ((∀ m ∈ code.marks p, m = .cut) ∧ code.run p = code)
    ⟨fun h => ⟨h.1, h.2⟩, fun h => ⟨h.bare, h.closed⟩⟩

instance (b : Text) : Decidable (IsBody b) :=
  decidable_of_iff (Mark.depth? 0 (code.marks b) = some 0 ∧ code.run b = code)
    ⟨fun h => ⟨h.1, h.2⟩, fun h => ⟨h.balanced, h.closed⟩⟩

/-- the texts of a block stand in `u` one after the other, between its braces -/
structure FoundIn (u : Text) (b : Block) : Prop where
  prelude : IsPrelude b.prelude
  body : IsBody b.body
  part : ∃ before after, u = before ++ (b.prelude ++ '{' :: b.body ++ ['}']) ++ after ∧ code.run before = code

theorem FoundIn.append {u : Text} {b : Block} (h : FoundIn u b) (v : Text) : FoundIn (u ++ v) b := by
  obtain ⟨before, after, rfl, hb⟩ := h.part
  exact ⟨h.prelude, h.body, before, after ++ v, by simp, hb⟩

theorem next_brace : code.next '{' = code := by decide

theorem FoundIn.uncut {u : Text} {b : Block} (h : FoundIn u b) (hu : .cut ∉ code.marks u) :
    .cut ∉ code.marks b.prelude ∧ .cut ∉ code.marks b.body := by
  obtain ⟨before, after, rfl, hb⟩ := h.part
  simp only [marks_append, Quoting.run_append, hb, h.prelude.closed, marks_cons _ '{' b.body, next_brace,
    List.mem_append, not_or] at hu
  exact ⟨hu.1.2.1.1, hu.1.2.1.2.2⟩

theorem FoundIn.uncommented {u : Text} {b : Block} (h : FoundIn u b) (hu : code.Uncommented u) :
    code.Uncommented b.prelude ∧ code.Uncommented b.body := by
  obtain ⟨before, after, rfl, hb⟩ := h.part
  have hblock := hu.of_append.1.of_append.2
  rw [hb] at hblock
  obtain ⟨hp, hbody⟩ := hblock.of_append.1.of_append
  rw [h.prelude.closed] at hbody
  exact ⟨hp, (uncommented_cons.1 hbody).2⟩

/-- what is collected at a place is the end of the text read, `u` -/
def Place.Holds (u : Text) : Place → Prop
  | .between => code.run u = code
  | .before _ seen => ∃ before, u = before ++ seen.reverse ∧ code.run before = code ∧
      ∀ m ∈ code.marks seen.reverse, m = .cut
  | .within p _ _ d seen => ∃ before, u = before ++ (p ++ '{' :: seen.reverse) ∧ code.run before = code ∧
      IsPrelude p ∧ Mark.depth? 0 (code.marks seen.reverse) = some d

/-- `s` is a state that reading `u` leads to -/
structure Holds (u : Text) (s : St) : Prop where
  quoting : s.quoting = code.run u
  place : s.place.Holds u
  blocks : ∀ b ∈ s.blocks, FoundIn u b
  cuts : .cut ∈ code.marks u → ∃ i ∈ s.issues, i.kind = .unterminatedString

theorem holds_start (line : Nat) : Holds [] (start line) :=
  ⟨rfl, rfl, by simp [start], by simp⟩

/-- the text behind the brace of a block is read from code -/
theorem quoting_within {before p : Text} (hb : code.run before = code) (hp : IsPrelude p) (seen : Text) :
    code.run (before ++ (p ++ '{' :: seen)) = code.run seen := by
  rw [Quoting.run_append, hb, Quoting.run_append, hp.closed, Quoting.run_cons, next_brace]

/-- one more character in a block changes the depth as its mark says -/
theorem depth?_read {seen : Text} {d : Nat} (h : Mark.depth? 0 (code.marks seen.reverse) = some d) (c : Char) :
    Mark.depth? 0 (code.marks (c :: seen).reverse) =
      Mark.depth? d (Mark.ofChar? (code.run seen.reverse) c).toList := by
  rw [List.reverse_cons, marks_concat, Mark.depth?_append, h]
  rfl

/-- a character that is only collected keeps what a place holds -/
theorem holds_keep {u : Text} {p : Place} (h : p.Holds u) (line : Nat) {c : Char}
    (hc : Mark.ofChar? (code.run u) c = none ∨ Mark.ofChar? (code.run u) c = some .cut) :
    (p.keep line c).Holds (u ++ [c]) := by
  have hcut : ∀ m ∈ (Mark.ofChar? (code.run u) c).toList, m = .cut := by
    rcases hc with hc | hc <;> simp [hc]
  cases p with
  | between =>
    have hu : code.run u = code := h
    rw [hu] at hcut
    simp only [Place.keep]
    split
    · rename_i hb
      show code.run (u ++ [c]) = code
      rw [run_concat, hu]
      rcases Text.isAsciiBlank_iff.1 hb with rfl | rfl | rfl | rfl | rfl <;> decide
    · refine ⟨u, rfl, hu, ?_⟩
      simpa [marks_cons] using hcut
  | before l seen =>
    obtain ⟨before, rfl, hb, hs⟩ := h
    rw [Quoting.run_append, hb] at hcut
    refine ⟨before, by simp, hb, ?_⟩
    rw [List.reverse_cons, marks_concat]
    exact List.forall_mem_append.2 ⟨hs, hcut⟩
  | within p l o d seen =>
    obtain ⟨before, rfl, hb, hp, hd⟩ := h
    refine ⟨before, by simp, hb, hp, ?_⟩
    rw [quoting_within hb hp] at hc
    rw [depth?_read hd]
    rcases hc with hc | hc <;> rw [hc] <;> rfl

theorem holds_openBrace {u : Text} {s : St} (h : s.place.Holds u) (hu : code.run u = code) :
    (openBrace s).place.Holds (u ++ ['{']) := by
  unfold openBrace
  rcases hp : s.place with _ | ⟨l, seen⟩ | ⟨p, l, o, d, seen⟩ <;> rw [hp] at h
  · exact ⟨u, rfl, hu, ⟨by simp, rfl⟩, rfl⟩
  · obtain ⟨before, rfl, hb, hs⟩ := h
    rw [Quoting.run_append, hb] at hu
    exact ⟨before, by simp, hb, ⟨hs, hu⟩, rfl⟩
  · obtain ⟨before, rfl, hb, hp, hd⟩ := h
    rw [quoting_within hb hp] at hu
    refine ⟨before, by simp, hb, hp, ?_⟩
    rw [depth?_read hd, hu]
    rfl

theorem holds_closeBrace {u : Text} {s : St} (h : s.place.Holds u) (hu : code.run u = code) :
    (closeBrace s).place.Holds (u ++ ['}']) ∧ ∀ b ∈ (closeBrace s).blocks, b ∈ s.blocks ∨ FoundIn (u ++ ['}']) b := by
  have hn : code.run (u ++ ['}']) = code := by rw [run_concat, hu]; decide
  unfold closeBrace
  rcases hp : s.place with _ | ⟨l, seen⟩ | ⟨p, l, o, _ | d, seen⟩ <;> rw [hp] at h
  · exact ⟨hn, fun b hb => Or.inl hb⟩
  · exact ⟨hn, fun b hb => Or.inl hb⟩
  · obtain ⟨before, rfl, hb, hp, hd⟩ := h
    rw [quoting_within hb hp] at hu
    refine ⟨hn, ?_⟩
    intro b hmem
    rcases List.mem_cons.1 hmem with rfl | hmem
    · exact Or.inr ⟨hp, ⟨hd, hu⟩, before, [], by simp, hb⟩
    · exact Or.inl hmem
  · obtain ⟨before, rfl, hb, hp, hd⟩ := h
    rw [quoting_within hb hp] at hu
    refine ⟨⟨before, by simp, hb, hp, ?_⟩, fun b hmem => Or.inl hmem⟩
    rw [depth?_read hd, hu]
    rfl

theorem holds_semicolon {u : Text} {s : St} (h : s.place.Holds u) (hu : code.run u = code) :
    (semicolon s).place.Holds (u ++ [';']) ∧ (semicolon s).blocks = s.blocks := by
  have hn : code.run (u ++ [';']) = code := by rw [run_concat, hu]; decide
  unfold semicolon
  rcases hp : s.place with _ | ⟨l, seen⟩ | ⟨p, l, o, d, seen⟩ <;> rw [hp] at h
  · exact ⟨by rw [hp]; exact hn, rfl⟩
  · exact ⟨hn, rfl⟩
  · obtain ⟨before, rfl, hb, hp, hd⟩ := h
    rw [quoting_within hb hp] at hu
    refine ⟨⟨before, by simp, hb, hp, ?_⟩, rfl⟩
    rw [depth?_read hd, hu]
    rfl

/-- what one character does to the place and the blocks -/
theorem holds_act {u : Text} {s : St} (hq : s.quoting = code.run u) (h : s.place.Holds u) (c : Char) :
    (act s c).place.Holds (u ++ [c]) ∧ ∀ b ∈ (act s c).blocks, b ∈ s.blocks ∨ FoundIn (u ++ [c]) b := by
  rw [act_eq, hq]
  split
  · rename_i hm
    obtain ⟨hu, rfl⟩ := ofChar?_some hm
    exact ⟨holds_openBrace h hu, fun b hb => Or.inl hb⟩
  · rename_i hm
    obtain ⟨hu, rfl⟩ := ofChar?_some hm
    exact holds_closeBrace h hu
  · rename_i hm
    obtain ⟨hu, rfl⟩ := ofChar?_some hm
    obtain ⟨hp, hb⟩ := holds_semicolon h hu
    exact ⟨hp, fun b hmem => Or.inl (hb ▸ hmem)⟩
  · rename_i hm
    exact ⟨holds_keep h s.line (Or.inr hm), fun b hb => Or.inl hb⟩
  · rename_i hm
    exact ⟨holds_keep h s.line (Or.inl hm), fun b hb => Or.inl hb⟩

theorem mem_issues_act {s : St} {i : Issue} (h : i ∈ s.issues) (c : Char) : i ∈ (act s c).issues := by
  rw [act_eq]
  split
  · exact h
  · unfold closeBrace
    split
    · exact h
    · exact h
    · exact List.mem_cons_of_mem _ h
  · unfold semicolon
    split <;> exact h
  · exact List.mem_cons_of_mem _ h
  · exact h

/-- **One character keeps the invariant.** -/
theorem holds_step {u : Text} {s : St} (h : Holds u s) (c : Char) : Holds (u ++ [c]) (step s c) := by
  obtain ⟨hplace, hblocks⟩ := holds_act h.quoting h.place c
  refine ⟨?_, hplace, ?_, ?_⟩
  · rw [run_concat, ← h.quoting]
    rfl
  · intro b hb
    exact (hblocks b hb).elim (fun hold => (h.blocks b hold).append [c]) id
  · intro hcut
    rw [marks_concat, List.mem_append] at hcut
    rcases hcut with hcut | hcut
    · obtain ⟨i, hi, hk⟩ := h.cuts hcut
      exact ⟨i, mem_issues_act hi c, hk⟩
    · rw [← h.quoting, Option.mem_toList] at hcut
      refine ⟨⟨.unterminatedString, s.line⟩, ?_, rfl⟩
      show _ ∈ (act s c).issues
      rw [act_eq, hcut]
      exact List.mem_cons_self

/-- **So does every text.** -/
theorem holds_run (line : Nat) (t : Text) : Holds t (run (start line) t) := by
  induction t using List.reverseRecOn with
  | nil => exact holds_start line
  | append_singleton u c ih =>
    rw [run_append]
    exact holds_step ih c

/-! ## Whole texts -/

/-- **A block found is a prelude and a body, taken from the text as they stand.** -/
theorem mem_scan {line : Nat} {t : Text} {b : Block} (hb : b ∈ (scan line t).blocks) : FoundIn t b :=
  (holds_run line t).blocks b (List.mem_reverse.1 hb)

theorem mem_issues_scan {line : Nat} {t : Text} {i : Issue} (h : i ∈ (run (start line) t).issues) :
    i ∈ (scan line t).issues := by
  unfold scan St.finish
  simp only
  split
  · split
    · exact List.mem_reverse.2 h
    · exact List.mem_append_left _ (List.mem_reverse.2 h)
  · exact List.mem_reverse.2 h

/-- **Where no issue reports a cut literal, there is none.** -/
theorem uncut_of_issues {line : Nat} {t : Text} (h : ∀ i ∈ (scan line t).issues, i.kind ≠ .unterminatedString) :
    .cut ∉ code.marks t := by
  intro hcut
  obtain ⟨i, hi, hk⟩ := (holds_run line t).cuts hcut
  exact h i (mem_issues_scan hi) hk

end StyleCheck.Block
