/-
What a string literal holds does not matter.

A literal in code, without escapes and line feeds inside, is read as one piece, whatever it holds: it makes no marks,
opens no comment and leaves us in code (`marks_quoted`, `strip_quoted`, `run_quoted`). So two texts that differ inside
one literal are read in step. `St.Swapped` says how far the two scans can be apart: one of the texts being collected, or
one block found, holds the one literal where that of the other scan holds the other.
- `swapped_step`: one character keeps this; `swapped_run`: so does every text;
- `rulesOf_swapped`: the blocks give the same rules, but for one that holds the literal in its selector or its body;
- `parse_quoted`: the two texts have the same faults, issues and counts, and the same rules but for that one.
-/
import StyleCheck.Proofs.Parse.Concatenation

namespace StyleCheck

open Quoting Text

/-- two lists that are equal but for one element, if any, where `R` holds -/
def DifferByOne {α : Type} (R : α → α → Prop) (l l' : List α) : Prop :=
  l' = l ∨ ∃ before after a a', l = before ++ a :: after ∧ l' = before ++ a' :: after ∧ R a a'

namespace DifferByOne

variable {α β : Type} {R : α → α → Prop} {l l' : List α}

theorem reverse (h : DifferByOne R l l') : DifferByOne R l.reverse l'.reverse := by
  rcases h with rfl | ⟨before, after, a, a', rfl, rfl, h⟩
  · exact Or.inl rfl
  · exact Or.inr ⟨after.reverse, before.reverse, a, a', by simp, by simp, h⟩

/-- what does not look at the difference is the same -/
theorem map_eq (h : DifferByOne R l l') (f : α → β) (hf : ∀ a a', R a a' → f a' = f a) : l'.map f = l.map f := by
  rcases h with rfl | ⟨before, after, a, a', rfl, rfl, h⟩
  · rfl
  · simp [hf a a' h]

theorem length_eq (h : DifferByOne R l l') : l'.length = l.length := by
  rcases h with rfl | ⟨before, after, a, a', rfl, rfl, -⟩
  · rfl
  · simp

theorem countP_eq (h : DifferByOne R l l') (p : α → Bool) (hp : ∀ a a', R a a' → p a' = p a) :
    l'.countP p = l.countP p := by
  rcases h with rfl | ⟨before, after, a, a', rfl, rfl, h⟩
  · rfl
  · simp only [List.countP_append, List.countP_cons, hp a a' h]

theorem filterMap {S : β → β → Prop} (h : DifferByOne R l l') (f : α → Option β)
    (hf : ∀ a a', R a a' → (f a = none ∧ f a' = none) ∨ ∃ b b', f a = some b ∧ f a' = some b' ∧ S b b') :
    DifferByOne S (l.filterMap f) (l'.filterMap f) := by
  rcases h with rfl | ⟨before, after, a, a', rfl, rfl, h⟩
  · exact Or.inl rfl
  · rcases hf a a' h with ⟨ha, ha'⟩ | ⟨b, b', hb, hb', hS⟩
    · exact Or.inl (by simp [ha, ha'])
    · exact Or.inr ⟨before.filterMap f, after.filterMap f, b, b', by simp [hb], by simp [hb'], hS⟩

end DifferByOne

/-! ## Literals -/

namespace Text

/-- `s` between two quotes -/
def quoted (q : Char) (s : Text) : Text := q :: s ++ [q]

/-- whether nothing in `s` ends a literal or hides a character of it -/
def Inert (q : Char) (s : Text) : Prop := ∀ c ∈ s, c ≠ q ∧ c ≠ '\\' ∧ c ≠ '\n'

instance (q : Char) (s : Text) : Decidable (Inert q s) :=
  List.decidableBAll (fun c => c ≠ q ∧ c ≠ '\\' ∧ c ≠ '\n') s

/-- `t` with `a` in one place, and `t'` with `b` there -/
def Swapped (a b t t' : Text) : Prop := ∃ x y, t = x ++ a ++ y ∧ t' = x ++ b ++ y

theorem inert_cons {q c : Char} {s : Text} : Inert q (c :: s) ↔ (c ≠ q ∧ c ≠ '\\' ∧ c ≠ '\n') ∧ Inert q s :=
  List.forall_mem_cons

theorem isQuote_iff {q : Char} : isQuote q = true ↔ q = '"' ∨ q = '\'' := by simp [isQuote]

theorem solid_of_quote {q : Char} (hq : isQuote q = true) : isBlank q = false := by
  rcases isQuote_iff.1 hq with rfl | rfl <;> decide

theorem Swapped.concat {a b t t' : Text} (h : Swapped a b t t') (c : Char) : Swapped a b (t ++ [c]) (t' ++ [c]) := by
  obtain ⟨x, y, rfl, rfl⟩ := h
  exact ⟨x, y ++ [c], by simp, by simp⟩

/-- in front of a literal, trimming drops what it drops without it; behind it, too -/
theorem trim_quoted {q : Char} (hq : isQuote q = true) (s x y : Text) :
    trim (x ++ quoted q s ++ y) = trimStart x ++ quoted q s ++ trimEnd y := by
  have hs := solid_of_quote hq
  have hstart : trimStart (x ++ quoted q s ++ y) = trimStart x ++ quoted q s ++ y := by
    have hfirst : trimStart (quoted q s ++ y) = quoted q s ++ y := by simp [trimStart, quoted, hs]
    by_cases hx : Blank x
    · rw [List.append_assoc, trimStart_append hx, hfirst, trimStart_eq_nil_iff.2 hx, List.nil_append]
    · have hne : trimStart x ≠ [] := fun h => hx (trimStart_eq_nil_iff.1 h)
      rw [List.append_assoc]
      unfold trimStart at hne ⊢
      rw [List.dropWhile_append, if_neg (by simpa using hne), List.append_assoc]
  have hend (z : Text) : trimEnd (z ++ [q] ++ y) = z ++ [q] ++ trimEnd y := by
    unfold trimEnd
    rw [List.reverse_append, List.dropWhile_append]
    split
    · rename_i hy
      rw [List.isEmpty_iff.1 hy]
      simp [hs]
    · simp
  have hparts (z : Text) : z ++ quoted q s = z ++ q :: s ++ [q] := by simp [quoted]
  rw [trim, hstart, hparts, hend]

theorem takeWhile_quoted {q : Char} (hq : isQuote q = true) (s x y : Text) :
    (x ++ quoted q s ++ y).takeWhile isBlank = x.takeWhile isBlank := by
  have hnone : (quoted q s ++ y).takeWhile isBlank = [] := by simp [quoted, solid_of_quote hq]
  rw [List.append_assoc, List.takeWhile_append, hnone]
  split
  · rename_i hx
    rw [List.append_nil, List.IsPrefix.eq_of_length (List.takeWhile_prefix _) hx]
  · rfl

theorem mem_quoted (q : Char) (s : Text) : q ∈ quoted q s := by simp [quoted]

theorem not_blank_quoted {q : Char} (hq : isQuote q = true) (s x y : Text) : ¬Blank (x ++ quoted q s ++ y) := by
  intro h
  have hblank := h q (by simp [mem_quoted])
  rw [solid_of_quote hq] at hblank
  cases hblank

end Text

section
variable {q : Char} {s : Text}

/-- inside a literal, an inert text changes nothing -/
theorem Quoting.read_inert (hs : Inert q s) :
    (⟨some q, false⟩ : Quoting).run s = ⟨some q, false⟩ ∧ (⟨some q, false⟩ : Quoting).marks s = [] := by
  induction s with
  | nil => exact ⟨rfl, rfl⟩
  | cons c s ih =>
    obtain ⟨⟨hq, he, hn⟩, hs⟩ := inert_cons.1 hs
    have hnext : (⟨some q, false⟩ : Quoting).next c = ⟨some q, false⟩ := by simp [next, he, hq, hn]
    have hmark : Mark.ofChar? ⟨some q, false⟩ c = none := by simp [Mark.ofChar?, isCode, isCutBy, hn]
    rw [run_cons, marks_cons, hnext, hmark]
    exact ih hs

variable (hq : isQuote q = true) (hs : Inert q s)
include hq hs

/-- **A literal makes no marks and leads back to code.** -/
theorem Quoting.marks_quoted : code.run (quoted q s) = code ∧ code.marks (quoted q s) = [] := by
  have hopen : code.next q = ⟨some q, false⟩ ∧ Mark.ofChar? code q = none := by
    rcases isQuote_iff.1 hq with rfl | rfl <;> decide
  have hclose : (⟨some q, false⟩ : Quoting).next q = code ∧ Mark.ofChar? ⟨some q, false⟩ q = none := by
    rcases isQuote_iff.1 hq with rfl | rfl <;> decide
  obtain ⟨hr, hm⟩ := read_inert hs
  constructor
  · rw [quoted, List.cons_append, run_cons, hopen.1, run_concat, hr, hclose.1]
  · rw [quoted, List.cons_append, marks_cons, hopen.1, hopen.2, marks_concat, hr, hm, hclose.2]
    rfl

theorem Text.newlines_quoted : newlines (quoted q s) = 0 := by
  refine List.count_eq_zero.2 fun hn => ?_
  simp only [quoted, List.cons_append, List.mem_cons, List.mem_append, List.not_mem_nil, or_false] at hn
  rcases hn with hn | hn | hn
  · rw [← hn] at hq
    cases hq
  · exact (hs _ hn).2.2 rfl
  · rw [← hn] at hq
    cases hq

end

/-! ## Comments -/

namespace Comment

/-- whether the next character stands in code, that is in no comment, no literal and behind no backslash -/
def Place.inCode : Place → Bool
  | .text q => q.isCode
  | .slash => true
  | _ => false

/-- the removal reads the rest of a literal and keeps it -/
theorem run_inert {q : Char} {s : Text} (hs : Inert q s) (line : Nat) (kept : Text) :
    run ⟨.text ⟨some q, false⟩, line, kept⟩ s = ⟨.text ⟨some q, false⟩, line, s.reverse ++ kept⟩ := by
  induction s generalizing kept with
  | nil => rfl
  | cons c s ih =>
    obtain ⟨⟨hq, he, hn⟩, hs⟩ := inert_cons.1 hs
    have hstep : step ⟨.text ⟨some q, false⟩, line, kept⟩ c = ⟨.text ⟨some q, false⟩, line, c :: kept⟩ := by
      simp [step, passed, Place.next, isCode, next, hq, he, hn]
    rw [run_cons, hstep, ih hs]
    simp

/-- **The removal reads a literal in code and keeps it**, with the slash that may be held back in front of it. -/
theorem run_quoted {q : Char} {s : Text} (hq : isQuote q = true) (hs : Inert q s) {st : St}
    (hst : st.place.inCode = true) :
    run st (quoted q s) = ⟨.text code, st.line, (quoted q s).reverse ++ (st.place.held ++ st.kept)⟩ := by
  obtain ⟨place, line, kept⟩ := st
  have hopen : step ⟨place, line, kept⟩ q = ⟨.text ⟨some q, false⟩, line, q :: (place.held ++ kept)⟩ := by
    cases place with
    | text k =>
      obtain rfl := (isCode_iff k).1 hst
      rcases isQuote_iff.1 hq with rfl | rfl <;> rfl
    | slash => rcases isQuote_iff.1 hq with rfl | rfl <;> rfl
    | comment o => cases hst
    | star o => cases hst
  have hclose (kept : Text) : run ⟨.text ⟨some q, false⟩, line, kept⟩ [q] = ⟨.text code, line, q :: kept⟩ := by
    rcases isQuote_iff.1 hq with rfl | rfl <;> rfl
  rw [quoted, List.cons_append, run_cons, hopen, run_append, run_inert hs, hclose]
  simp

/-- where a text leads does not depend on what was kept -/
theorem place_run_kept (place : Place) (line : Nat) (kept kept' t : Text) :
    (run ⟨place, line, kept⟩ t).place = (run ⟨place, line, kept'⟩ t).place := by
  induction t generalizing place line kept kept' with
  | nil => rfl
  | cons c t ih => exact ih _ _ _ _

variable {u : Text} (hu : (run (start 1) u).place.inCode = true)
include hu

/-- **Comments are removed around a literal.** -/
theorem strip_quoted {q : Char} {s : Text} (hq : isQuote q = true) (hs : Inert q s) (v : Text) :
    strip (u ++ quoted q s ++ v) = strip u ++ quoted q s ++ strip v := by
  have hrun := run_quoted hq hs hu
  have hplace : (run (start 1) (u ++ quoted q s)).place = .text code := by rw [run_append, hrun]
  have hstrip : strip (u ++ quoted q s) = strip u ++ quoted q s := by
    unfold strip
    rw [run_append, hrun]
    simp [St.text, Place.held]
  rw [strip_append hplace, hstrip]

/-- what a literal holds opens and closes no comment -/
theorem issues_quoted {q : Char} {s s' : Text} (hq : isQuote q = true) (hs : Inert q s) (hs' : Inert q s') (v : Text) :
    (run (start 1) (u ++ quoted q s' ++ v)).issues = (run (start 1) (u ++ quoted q s ++ v)).issues := by
  have hplace : (run (start 1) (u ++ quoted q s' ++ v)).place = (run (start 1) (u ++ quoted q s ++ v)).place := by
    rw [run_append, run_append, run_append, run_append, run_quoted hq hs hu, run_quoted hq hs' hu]
    exact place_run_kept _ _ _ _ _
  unfold St.issues
  rw [hplace]

theorem quoting_of_inCode : code.run (strip u) = code := by
  rw [quoting_strip]
  cases hp : (run (start 1) u).place <;> rw [hp] at hu
  case text k => exact (isCode_iff k).1 hu
  all_goals rfl

end Comment

/-! ## Two scans -/

namespace Block

/-- the place behind a literal -/
def Place.collect (line : Nat) (t : Text) : Place → Place
  | .between => .before line t.reverse
  | .before l seen => .before l (t.reverse ++ seen)
  | .within p l o d seen => .within p l o d (t.reverse ++ seen)

/-- **A literal in code is collected as it stands.** -/
theorem run_quoted {q : Char} {s : Text} (hq : isQuote q = true) (hs : Inert q s) {st : St} (hst : st.quoting = code) :
    run st (quoted q s) = { st with place := st.place.collect st.line (quoted q s) } := by
  obtain ⟨k, line, place, blocks, issues, n⟩ := st
  obtain rfl : k = code := hst
  obtain ⟨hrun, hmarks⟩ := marks_quoted hq hs
  have hbare : ∀ m ∈ code.marks (quoted q s), m = .cut := by simp [hmarks]
  have hcuts : cuts line code (quoted q s) = [] := cuts_eq_nil (by simp [hmarks]) line
  have hlines : newlines (quoted q s) = 0 := newlines_quoted hq hs
  cases place with
  | between =>
    have hvisible : isAsciiBlank q = false := by rcases isQuote_iff.1 hq with rfl | rfl <;> decide
    have hbegun : begun line (quoted q s) = .before line (quoted q s).reverse := by simp [begun, quoted, hvisible]
    rw [run_prelude line n blocks issues hbare, hrun, hcuts, hlines, hbegun]
    rfl
  | before l seen =>
    rw [run_before line n blocks issues hbare, hrun, hcuts, hlines]
    rfl
  | within p l o d seen =>
    have hdepth : Mark.depth? d (code.marks (quoted q s)) = some d := by
      rw [hmarks]
      rfl
    rw [run_within line n blocks issues hdepth, hrun, hcuts, hlines]
    rfl

/-- the same block but for one place in its prelude or its body -/
inductive Swapped (a b : Text) : Block → Block → Prop where
  | prelude {p p' body : Text} {line openLine : Nat} : Text.Swapped a b p p' →
      Swapped a b ⟨p, body, line, openLine⟩ ⟨p', body, line, openLine⟩
  | body {p body body' : Text} {line openLine : Nat} : Text.Swapped a b body body' →
      Swapped a b ⟨p, body, line, openLine⟩ ⟨p, body', line, openLine⟩

/-- the same place but for one place in what was collected -/
inductive Place.Swapped (a b : Text) : Place → Place → Prop where
  | before {l : Nat} {seen seen' : Text} : Text.Swapped a b seen.reverse seen'.reverse →
      Place.Swapped a b (.before l seen) (.before l seen')
  | prelude {p p' seen : Text} {l o d : Nat} : Text.Swapped a b p p' →
      Place.Swapped a b (.within p l o d seen) (.within p' l o d seen)
  | body {p seen seen' : Text} {l o d : Nat} : Text.Swapped a b seen.reverse seen'.reverse →
      Place.Swapped a b (.within p l o d seen) (.within p l o d seen')

/-- the same state but for where the literal is: being collected, in a block, or in text that was dropped -/
inductive St.Swapped (a b : Text) : St → St → Prop where
  | held {q : Quoting} {line n : Nat} {place place' : Place} {blocks : List Block} {issues : List Issue} :
      place.Swapped a b place' → St.Swapped a b ⟨q, line, place, blocks, issues, n⟩ ⟨q, line, place', blocks, issues, n⟩
  | found (newer : List Block) {q : Quoting} {line n : Nat} {place : Place} {older : List Block}
      {block block' : Block} {issues : List Issue} : block.Swapped a b block' →
      St.Swapped a b ⟨q, line, place, newer ++ block :: older, issues, n⟩
        ⟨q, line, place, newer ++ block' :: older, issues, n⟩
  | gone (s : St) : St.Swapped a b s s

variable {a b : Text}

theorem swapped_keep {p p' : Place} (h : p.Swapped a b p') (line : Nat) (c : Char) :
    (p.keep line c).Swapped a b (p'.keep line c) := by
  cases h with
  | before h => exact .before (by simpa using h.concat c)
  | prelude h => exact .prelude h
  | body h => exact .body (by simpa using h.concat c)

section
variable {q : Quoting} {line n : Nat} {place place' : Place} {blocks : List Block} {issues : List Issue}
  (h : place.Swapped a b place')
include h

theorem swapped_openBrace :
    (openBrace ⟨q, line, place, blocks, issues, n⟩).Swapped a b (openBrace ⟨q, line, place', blocks, issues, n⟩) := by
  cases h with
  | before h => exact .held (.prelude h)
  | prelude h => exact .held (.prelude h)
  | body h => exact .held (.body (by simpa using h.concat '{'))

theorem swapped_closeBrace :
    (closeBrace ⟨q, line, place, blocks, issues, n⟩).Swapped a b (closeBrace ⟨q, line, place', blocks, issues, n⟩) := by
  cases h with
  | before h => exact .gone _
  | @prelude _ _ _ _ _ d h =>
    cases d with
    | zero => exact .found [] (.prelude h)
    | succ d => exact .held (.prelude h)
  | @body _ _ _ _ _ d h =>
    cases d with
    | zero => exact .found [] (.body h)
    | succ d => exact .held (.body (by simpa using h.concat '}'))

theorem swapped_semicolon :
    (semicolon ⟨q, line, place, blocks, issues, n⟩).Swapped a b (semicolon ⟨q, line, place', blocks, issues, n⟩) := by
  cases h with
  | before h => exact .gone _
  | prelude h => exact .held (.prelude h)
  | body h => exact .held (.body (by simpa using h.concat ';'))

end

/-- what was found before has no part in what one character does -/
theorem act_found (s : St) (c : Char) :
    ∃ found, ∀ blocks, act { s with blocks } c = { act s c with blocks := found ++ blocks } := by
  obtain ⟨q, line, place, old, issues, n⟩ := s
  simp only [act_eq]
  cases Mark.ofChar? q c with
  | none => exact ⟨[], fun _ => rfl⟩
  | some m =>
    cases m with
    | opens => exact ⟨[], fun _ => rfl⟩
    | closes =>
      rcases place with _ | ⟨l, seen⟩ | ⟨p, l, o, _ | d, seen⟩
      · exact ⟨[], fun _ => rfl⟩
      · exact ⟨[], fun _ => rfl⟩
      · exact ⟨[⟨p, seen.reverse, l, o⟩], fun _ => rfl⟩
      · exact ⟨[], fun _ => rfl⟩
    | ends => rcases place with _ | ⟨l, seen⟩ | ⟨p, l, o, d, seen⟩ <;> exact ⟨[], fun _ => rfl⟩
    | cut => exact ⟨[], fun _ => rfl⟩

section
variable {s s' : St} (h : s.Swapped a b s')
include h

theorem swapped_act (c : Char) : (act s c).Swapped a b (act s' c) := by
  cases h with
  | @held q line n place place' blocks issues h =>
    simp only [act_eq]
    cases Mark.ofChar? q c with
    | none => exact .held (swapped_keep h line c)
    | some m =>
      cases m with
      | opens => exact swapped_openBrace h
      | closes => exact swapped_closeBrace h
      | ends => exact swapped_semicolon h
      | cut => exact .held (swapped_keep h line c)
  | @found newer q line n place older block block' issues h =>
    obtain ⟨found, hact⟩ := act_found ⟨q, line, place, [], issues, n⟩ c
    rw [hact (newer ++ block :: older), hact (newer ++ block' :: older), ← List.append_assoc, ← List.append_assoc]
    exact .found (found ++ newer) h
  | gone s => exact .gone _

/-- **One character keeps two scans in step.** -/
theorem swapped_step (c : Char) : (step s c).Swapped a b (step s' c) := by
  have hq : s'.quoting = s.quoting ∧ s'.line = s.line := by cases h <;> exact ⟨rfl, rfl⟩
  have hact := swapped_act h c
  unfold step
  rw [hq.1, hq.2]
  generalize act s c = r at hact ⊢
  generalize act s' c = r' at hact ⊢
  cases hact with
  | held h => exact .held h
  | found newer h => exact .found newer h
  | gone r => exact .gone _

/-- **So does every text.** -/
theorem swapped_run (t : Text) : (run s t).Swapped a b (run s' t) := by
  induction t generalizing s s' with
  | nil => exact h
  | cons c t ih => exact ih (swapped_step h c)

end

/-- **Two texts that differ inside one literal in code are scanned in step.** -/
theorem run_swapped {q : Char} {s s' u : Text} (hq : isQuote q = true) (hs : Inert q s) (hs' : Inert q s')
    (hu : code.run u = code) (line : Nat) (v : Text) :
    (run (start line) (u ++ quoted q s ++ v)).Swapped (quoted q s) (quoted q s')
      (run (start line) (u ++ quoted q s' ++ v)) := by
  have hcode : (run (start line) u).quoting = code := (holds_run line u).quoting.trans hu
  simp only [run_append]
  rw [run_quoted hq hs hcode, run_quoted hq hs' hcode]
  refine swapped_run (.held ?_) v
  cases (run (start line) u).place with
  | between => exact .before ⟨[], [], by simp, by simp⟩
  | before l seen => exact .before ⟨seen.reverse, [], by simp, by simp⟩
  | within p l o d seen => exact .body ⟨seen.reverse, [], by simp, by simp⟩

/-- **What two scans in step have found in the end**: the same blocks but for one, and the same of everything else. -/
theorem finish_swapped {q : Char} {s s' : Text} (hq : isQuote q = true) {r r' : St}
    (h : r.Swapped (quoted q s) (quoted q s') r') :
    DifferByOne (Block.Swapped (quoted q s) (quoted q s')) r.finish.blocks r'.finish.blocks ∧
    r'.finish.issues = r.finish.issues ∧ r'.finish.fault = r.finish.fault ∧
    r'.finish.statements = r.finish.statements := by
  cases h with
  | held h =>
    cases h with
    | @before l seen seen' h =>
      obtain ⟨x, y, ht, ht'⟩ := h
      have hvisible {t : Text} (s : Text) (ht : t.reverse = x ++ quoted q s ++ y) : t.all isBlank = false := by
        rw [Bool.eq_false_iff]
        intro hall
        refine not_blank_quoted hq s x y (ht ▸ fun c hc => ?_)
        exact List.all_eq_true.1 hall c (List.mem_reverse.1 hc)
      refine ⟨Or.inl rfl, ?_, rfl, rfl⟩
      simp only [St.finish, hvisible s ht, hvisible s' ht']
    | prelude h => exact ⟨Or.inl rfl, rfl, rfl, rfl⟩
    | body h => exact ⟨Or.inl rfl, rfl, rfl, rfl⟩
  | @found newer q line n place older block block' issues h =>
    exact ⟨DifferByOne.reverse (Or.inr ⟨newer, older, block, block', rfl, rfl, h⟩), rfl, rfl, rfl⟩
  | gone r => exact ⟨Or.inl rfl, rfl, rfl, rfl⟩

end Block

/-! ## Rules -/

/-- the same rule but for one place in its selector, before that was normalised, or in its body -/
inductive Rule.Swapped (config : ParseConfig) (a b : Text) (r r' : Rule) : Prop where
  | selector {p p' : Text} : Text.Swapped a b p p' → r.selector = Selector.normalize p →
      r' = { r with
        selector := Selector.normalize p'
        kind := Selector.kind config.themeAttribute (Selector.normalize p') } →
      Rule.Swapped config a b r r'
  | body {body' : Text} : Text.Swapped a b r.body body' → r' = { r with body := body' } → Rule.Swapped config a b r r'

namespace Stylesheet

/-- numbers are given to the rules that differ, too -/
theorem numbered_swapped {config : ParseConfig} {a b : Text} {rules rules' : List Rule}
    (h : DifferByOne (Rule.Swapped config a b) rules rules') (n : Nat) :
    DifferByOne (Rule.Swapped config a b) (numbered n rules) (numbered n rules') := by
  rcases h with rfl | ⟨before, after, r, r', rfl, rfl, h⟩
  · exact Or.inl rfl
  · rw [numbered_append, numbered_append, numbered_cons, numbered_cons]
    refine Or.inr ⟨_, _, _, _, rfl, rfl, ?_⟩
    cases h with
    | selector h hr hr' =>
      subst hr'
      exact .selector h hr rfl
    | body h hr' =>
      subst hr'
      exact .body h rfl

section
variable (config : ParseConfig) (source : SourceId) {q : Char} {s s' : Text} (hq : isQuote q = true)
include hq

/-- the two blocks that differ have no rule, or rules that differ in the same place and are on the same lines -/
theorem toRule?_swapped {b b' : Block} (h : b.Swapped (quoted q s) (quoted q s') b') :
    (b.toRule? config source 0 = none ∧ b'.toRule? config source 0 = none) ∨
    ∃ r r', b.toRule? config source 0 = some r ∧ b'.toRule? config source 0 = some r' ∧
      r.Swapped config (quoted q s) (quoted q s') r' := by
  cases h with
  | @prelude p p' body line openLine h =>
    obtain ⟨x, y, rfl, rfl⟩ := h
    have hvisible (s : Text) : Selector.normalize (x ++ quoted q s ++ y) ≠ [] := fun hnil =>
      not_blank_quoted hq s x y ((retouched_normalize _).blank hnil)
    by_cases hbody : trim body = []
    · exact Or.inl ⟨by simp [Block.toRule?, hbody], by simp [Block.toRule?, hbody]⟩
    · refine Or.inr ⟨_, _, toRule?_of_visible config source (hvisible s) hbody,
        toRule?_of_visible config source (hvisible s') hbody, ?_⟩
      exact .selector ⟨x, y, rfl, rfl⟩ rfl rfl
  | @body p body body' line openLine h =>
    obtain ⟨x, y, rfl, rfl⟩ := h
    have htrim (s : Text) := trim_quoted hq s x y
    have hvisible (s : Text) : trim (x ++ quoted q s ++ y) ≠ [] := by
      rw [htrim]
      simp [quoted]
    by_cases hp : Selector.normalize p = []
    · exact Or.inl ⟨by simp [Block.toRule?, hp], by simp [Block.toRule?, hp]⟩
    · refine Or.inr ⟨_, _, toRule?_of_visible config source hp (hvisible s),
        toRule?_of_visible config source hp (hvisible s'), ?_⟩
      refine .body ⟨trimStart x, trimEnd y, htrim s, htrim s'⟩ ?_
      rw [takeWhile_quoted hq s', takeWhile_quoted hq s]

/-- **Blocks that differ in one place give rules that do**, and as many of them have none. -/
theorem rulesOf_swapped {blocks blocks' : List Block}
    (h : DifferByOne (Block.Swapped (quoted q s) (quoted q s')) blocks blocks') :
    DifferByOne (Rule.Swapped config (quoted q s) (quoted q s')) (rulesOf config source blocks)
      (rulesOf config source blocks') ∧
    blanks config source blocks' = blanks config source blocks := by
  have hrule (b b' : Block) (hb : b.Swapped (quoted q s) (quoted q s') b') := toRule?_swapped config source hq hb
  refine ⟨h.filterMap _ hrule, h.countP_eq _ fun b b' hb => ?_⟩
  rcases hrule b b' hb with ⟨hr, hr'⟩ | ⟨r, r', hr, hr', -⟩
  · rw [hr, hr']
  · rw [hr, hr']
    rfl

end

/-- **What a literal holds does not matter**, wherever comments, literals and escapes in front of it leave us in code,
and whatever the theme attribute is. Two texts that differ inside it have the same issues and faults, as many rules,
blocks without rule and statements, with the same lines and positions. The rules themselves are the same but for one:
the one with the literal in it, which is of the same kind if it is in its body. -/
theorem parse_quoted (config : ParseConfig) (source : SourceId) {q : Char} {s s' u : Text} (hq : isQuote q = true)
    (hs : Inert q s) (hs' : Inert q s') (hu : (Comment.run (Comment.start 1) u).place.inCode = true) (v : Text)
    (hsize : byteSize (u ++ quoted q s ++ v) ≤ config.maxInputSize)
    (hsize' : byteSize (u ++ quoted q s' ++ v) ≤ config.maxInputSize) :
    let w := parse config source (u ++ quoted q s ++ v)
    let w' := parse config source (u ++ quoted q s' ++ v)
    w'.rules.length = w.rules.length ∧ w'.stats.dropped = w.stats.dropped ∧
    w'.stats.statements = w.stats.statements ∧ w'.issues = w.issues ∧ w'.fault = w.fault ∧
    w'.rules.map (fun r => (r.line, r.bodyLine, r.position)) = w.rules.map (fun r => (r.line, r.bodyLine, r.position)) ∧
    DifferByOne (Rule.Swapped config (quoted q s) (quoted q s')) w.rules w'.rules := by
  intro w w'
  obtain ⟨hrules, hissues, hfault, hdropped, hstatements⟩ := parseAt_of_size source 1 hsize
  obtain ⟨hrules', hissues', hfault', hdropped', hstatements'⟩ := parseAt_of_size source 1 hsize'
  have hcode := Comment.quoting_of_inCode hu
  have hscans := Block.finish_swapped hq (Block.run_swapped hq hs hs' hcode 1 (Comment.strip v))
  rw [← Comment.strip_quoted hu hq hs, ← Comment.strip_quoted hu hq hs'] at hscans
  obtain ⟨hblocks, hi, hf, hn⟩ := hscans
  obtain ⟨hrule, hblank⟩ := rulesOf_swapped config source hq hblocks
  have hdiffer : DifferByOne (Rule.Swapped config (quoted q s) (quoted q s')) w.rules w'.rules := by
    show DifferByOne _ (parseAt _ _ _ _).rules (parseAt _ _ _ _).rules
    rw [hrules, hrules']
    exact numbered_swapped hrule 0
  refine ⟨hdiffer.length_eq, hdropped'.trans (hblank.trans hdropped.symm),
    hstatements'.trans (hn.trans hstatements.symm), ?_, hfault'.trans (hf.trans hfault.symm), ?_, hdiffer⟩
  · refine hissues'.trans (Eq.trans ?_ hissues.symm)
    rw [Comment.issues_quoted hu hq hs hs' v]
    exact congrArg _ hi
  · refine hdiffer.map_eq _ fun r r' h => ?_
    cases h with
    | selector _ _ h => rw [h]
    | body _ h => rw [h]

/-- a statement, a rule, a comment and a rule whose value is a literal behind a slash -/
def textBefore : Text := "@a; .b \x7b c: 'd' \x7d /* \" */\n.e \x7b f: /".toList

/-- braces, a semicolon, the other quote and a comment marker -/
def markedText : Text := "\x7d g \x7b ; ' /*".toList

/-- the end of the rule, one more, and a stray brace -/
def textBehind : Text := " ; \x7d\n.h \x7b i: j \x7d \x7d".toList

theorem parse_quoted_marked :
    let w := parse {} ⟨0⟩ (textBefore ++ quoted '\"' [] ++ textBehind)
    let w' := parse {} ⟨0⟩ (textBefore ++ quoted '\"' markedText ++ textBehind)
    isQuote '\"' = true ∧ Inert '\"' [] ∧ Inert '\"' markedText ∧
    (Comment.run (Comment.start 1) textBefore).place.inCode = true ∧
    byteSize (textBefore ++ quoted '\"' [] ++ textBehind) ≤ ({} : ParseConfig).maxInputSize ∧
    byteSize (textBefore ++ quoted '\"' markedText ++ textBehind) ≤ ({} : ParseConfig).maxInputSize ∧
    w.rules.map (·.bodyLine) = [1, 2, 3] ∧
    w'.rules.map (·.body) = ["c: 'd'".toList, "f: /\"\x7d g \x7b ; ' /*\" ;".toList, "i: j".toList] ∧
    w'.rules.length = w.rules.length ∧ w'.stats.dropped = w.stats.dropped ∧
    w'.stats.statements = w.stats.statements ∧ w'.issues = w.issues ∧ w'.fault = w.fault ∧
    w'.rules.map (fun r => (r.line, r.bodyLine, r.position)) = w.rules.map (fun r => (r.line, r.bodyLine, r.position)) ∧
    DifferByOne (Rule.Swapped {} (quoted '\"' []) (quoted '\"' markedText)) w.rules w'.rules := by
  intro w w'
  have hq : isQuote '\"' = true := by decide
  have hs : Inert '\"' [] := by decide
  have hs' : Inert '\"' markedText := by decide +kernel
  have hu : (Comment.run (Comment.start 1) textBefore).place.inCode = true := by decide +kernel
  have hsize : byteSize (textBefore ++ quoted '\"' [] ++ textBehind) ≤ ({} : ParseConfig).maxInputSize := by
    decide +kernel
  have hsize' : byteSize (textBefore ++ quoted '\"' markedText ++ textBehind) ≤ ({} : ParseConfig).maxInputSize := by
    decide +kernel
  exact ⟨hq, hs, hs', hu, hsize, hsize', by decide +kernel, by decide +kernel,
    parse_quoted {} ⟨0⟩ hq hs hs' hu textBehind hsize hsize'⟩

end Stylesheet

end StyleCheck
