/-
Line endings.

A text whose lines end in CR LF has a carriage return in front of every line feed. Whatever is read of it differs from
what is read of the same text with plain line feeds by such carriage returns, and by nothing else (`Text.Returned`; not
every line feed has one any more, since comments keep their line feeds only). This is so because a carriage return is a
blank, everywhere but in one place: behind a backslash in a literal it is hidden instead of the line feed, which then
cuts the literal. `Quoting.Uncontinued` says that there is no such place.
- `returned_trim`, `normalize_returned`: trimming and normal forms do not notice carriage returns;
- `Comment.returned_run`, `Block.returned_run`: comments and blocks are found in step;
- `cuts_continued`: a continued literal is cut in one of the two texts only;
- `parse_crlf_iff`: so it is there alone that line endings matter, and elsewhere the two texts have the same issues,
  faults, counts and rules, with the same lines, but for the line endings in bodies.
-/
import StyleCheck.Proofs.Parse.Concatenation

namespace StyleCheck

open Quoting Text

namespace Text

/-- `t` with CR LF in place of every line feed -/
def crlf (t : Text) : Text := t.flatMap fun c => if c = '\n' then ['\r', '\n'] else [c]

/-- `b` is `a` with carriage returns put in front of some line feeds -/
inductive Returned : Text → Text → Prop where
  | nil : Returned [] []
  | keep {a b : Text} (c : Char) : Returned a b → Returned (c :: a) (c :: b)
  | insert {a b : Text} : Returned a b → Returned ('\n' :: a) ('\r' :: '\n' :: b)

theorem crlf_append (a b : Text) : crlf (a ++ b) = crlf a ++ crlf b := List.flatMap_append

theorem crlf_newline : crlf ['\n'] = ['\r', '\n'] := rfl

theorem crlf_singleton {c : Char} (hc : c ≠ '\n') : crlf [c] = [c] := by simp [crlf, hc]

theorem byteSize_le_crlf (t : Text) : byteSize t ≤ byteSize (crlf t) := by
  induction t with
  | nil => exact Nat.le_refl _
  | cons c t ih =>
    rw [show crlf (c :: t) = crlf [c] ++ crlf t from crlf_append [c] t, byteSize_append, byteSize_cons]
    by_cases hc : c = '\n'
    · rw [hc, crlf_newline]
      simp only [byteSize_cons]
      omega
    · rw [crlf_singleton hc]
      simp only [byteSize_cons, byteSize_nil]
      omega

namespace Returned

theorem refl (t : Text) : Returned t t := by
  induction t with
  | nil => exact .nil
  | cons c t ih => exact ih.keep c

theorem append {a b a' b' : Text} (h : Returned a b) (h' : Returned a' b') : Returned (a ++ a') (b ++ b') := by
  induction h with
  | nil => exact h'
  | keep c _ ih => exact ih.keep c
  | insert _ ih => exact ih.insert

theorem newline : Returned ['\n'] ['\r', '\n'] := .insert .nil

/-- the parts of a text have their own carriage returns -/
theorem split {x y b : Text} (h : Returned (x ++ y) b) :
    ∃ x' y', b = x' ++ y' ∧ Returned x x' ∧ Returned y y' := by
  induction x generalizing b with
  | nil => exact ⟨[], b, rfl, .nil, h⟩
  | cons c x ih =>
    rw [List.cons_append] at h
    cases h with
    | keep _ h =>
      obtain ⟨x', y', rfl, hx, hy⟩ := ih h
      exact ⟨c :: x', y', rfl, hx.keep c, hy⟩
    | insert h =>
      obtain ⟨x', y', rfl, hx, hy⟩ := ih h
      exact ⟨'\r' :: '\n' :: x', y', rfl, hx.insert, hy⟩

variable {a b : Text} (h : Returned a b)
include h

theorem blank_iff : Blank b ↔ Blank a := by
  induction h with
  | nil => rfl
  | keep c _ ih => rw [blank_cons, blank_cons, ih]
  | insert _ ih =>
    rw [blank_cons, blank_cons, blank_cons, ih]
    exact and_iff_right (by decide)

theorem eq_nil_iff : b = [] ↔ a = [] := by cases h <;> simp

theorem newlines_eq : newlines b = newlines a := by
  induction h with
  | nil => rfl
  | @keep a b c _ ih => rw [newlines_cons c b, newlines_cons c a, ih]
  | @insert a b _ ih =>
    rw [newlines_cons '\r', newlines_cons '\n' b, newlines_cons '\n' a, ih]
    exact Nat.zero_add _

theorem takeWhile_blank : Returned (a.takeWhile isBlank) (b.takeWhile isBlank) := by
  induction h with
  | nil => exact .nil
  | keep c _ ih =>
    rw [List.takeWhile_cons, List.takeWhile_cons]
    split
    · exact ih.keep c
    · exact .nil
  | insert _ ih => exact ih.insert

/-- a visible last character stays, and so does a visible first one -/
theorem tight (ha : Tight a) : Tight b := by
  have hlast : b.getLast? = a.getLast? := by
    clear ha
    induction h with
    | nil => rfl
    | keep c _ ih => rw [List.getLast?_cons, List.getLast?_cons, ih]
    | insert _ ih => rw [List.getLast?_cons_cons, List.getLast?_cons, List.getLast?_cons, ih]
  refine ⟨?_, fun c hc => ha.last c (hlast ▸ hc)⟩
  cases h with
  | nil => simp
  | keep c _ => exact fun d hd => ha.first d (by simpa using hd)
  | insert _ => exact absurd (ha.first '\n' rfl) (by decide)

theorem words_eq : words b = words a := by
  have hprefix (w : Text) : words (w ++ b) = words (w ++ a) := by
    induction h generalizing w with
    | nil => rfl
    | @keep a b c _ ih => simpa using ih (w ++ [c])
    | @insert a b _ ih =>
      rw [words_append_blank w (by decide), words_append_blank w (by decide), words_cons_blank (by decide)]
      exact congrArg _ (ih [])
  exact hprefix []

end Returned

/-- **Trimming does not notice carriage returns.** -/
theorem returned_trim {a b : Text} (h : Returned a b) : Returned (trim a) (trim b) := by
  obtain ⟨lead, tail, ha, hl, ht⟩ := trim_decompose a
  rw [ha] at h
  obtain ⟨front, tail', rfl, hfront, htail⟩ := h.split
  obtain ⟨lead', core, rfl, hlead, hcore⟩ := hfront.split
  rw [append_trim _ (htail.blank_iff.2 ht), trim_append (hlead.blank_iff.2 hl),
    trim_eq_self_iff.2 (hcore.tight (tight_trim a))]
  exact hcore

theorem normalize_returned {a b : Text} (h : Returned a b) : Selector.normalize b = Selector.normalize a := by
  unfold Selector.normalize
  rw [h.words_eq]

end Text

/-! ## Quoting -/

namespace Quoting

/-- CR LF is read as a line feed, unless a backslash hides one character of it in a literal -/
theorem next_crlf {q : Quoting} (hq : q.Proper) (h : ¬(q.quote.isSome = true ∧ q.escaped = true)) :
    (q.next '\r').next '\n' = q.next '\n' ∧ (q.next '\r').isCutBy '\n' = q.isCutBy '\n' := by
  obtain ⟨k, e⟩ := q
  cases k with
  | none => cases e <;> decide
  | some k =>
    obtain rfl : e = false := by simpa using h
    have hr : (⟨some k, false⟩ : Quoting).next '\r' = ⟨some k, false⟩ :=
      next_blank hq (by decide) (by simp [isCutBy])
    rw [hr]
    exact ⟨rfl, rfl⟩

end Quoting

/-! ## Comments -/

namespace Comment

/-- the same state, but for carriage returns in what was kept -/
structure St.Returned (s s' : St) : Prop where
  place : s'.place = s.place
  line : s'.line = s.line
  kept : Text.Returned s.kept.reverse s'.kept.reverse

section
variable {s s' : St} (h : s.Returned s')
include h

theorem returned_step (c : Char) : (step s c).Returned (step s' c) := by
  refine ⟨?_, ?_, ?_⟩
  · simp only [step, h.place, h.line]
  · simp only [step, h.line]
  · simp only [step, h.place, List.reverse_append]
    exact h.kept.append (.refl _)

/-- what is kept of CR LF is at least its line feed -/
theorem returned_newline (hq : s.place.quoting.Proper)
    (hc : ¬(s.place.quoting.quote.isSome = true ∧ s.place.quoting.escaped = true)) :
    (step s '\n').Returned (step (step s' '\r') '\n') := by
  obtain ⟨place, line, kept⟩ := s
  obtain ⟨place', line', kept'⟩ := s'
  obtain ⟨hplace, hline, hkept⟩ := h
  obtain rfl : place' = place := hplace
  obtain rfl : line' = line := hline
  cases place' with
  | text q =>
    have hnext := (next_crlf hq hc).1
    refine ⟨?_, rfl, ?_⟩
    · simpa [step, Place.next, Place.quoting] using hnext
    · simpa [step, passed, Place.next] using hkept.append .newline
  | slash => exact ⟨rfl, rfl, by simpa [step, passed, Place.next] using hkept.append (.keep '/' .newline)⟩
  | comment opened | star opened =>
    exact ⟨rfl, rfl, by simpa [step, passed, Place.next] using hkept.append (.refl ['\n'])⟩

end

theorem kept_step (s : St) (c : Char) : (step s c).kept = passed c s.place ++ s.kept := rfl

/-- **Comments are removed in step**, as long as no literal goes on behind a line feed. -/
theorem returned_run {t : Text} (h : code.Uncontinued (run (start 1) t).kept.reverse) :
    (run (start 1) t).Returned (run (start 1) (crlf t)) := by
  induction t using List.reverseRecOn with
  | nil => exact ⟨rfl, rfl, .nil⟩
  | append_singleton t c ih =>
    have hquoting := quoting_text 1 t
    rw [crlf_append, run_append_singleton, run_append]
    rw [run_append_singleton, kept_step, List.reverse_append, uncontinued_append, hquoting] at h
    obtain ⟨hbefore, hc⟩ := h
    by_cases hn : c = '\n'
    · rw [hn] at hc ⊢
      refine returned_newline (ih hbefore) ?_ ?_
      · rw [← hquoting]
        exact proper_code.run _
      · -- only in text can there be a literal
        rintro ⟨hquote, hescaped⟩
        cases hp : (run (start 1) t).place with
        | text q =>
          rw [hp] at hc hquote hescaped
          have hpassed : passed '\n' (.text q) = ['\n'] := by simp [passed]
          rw [hpassed] at hc
          exact hc.1 ⟨hquote, hescaped, rfl⟩
        | _ =>
          rw [hp] at hquote
          cases hquote
    · rw [crlf_singleton hn]
      exact returned_step (ih hbefore) c

/-- what one character lets through continues no literal, unless it is a line feed that is hidden in one -/
theorem uncontinued_passed {c : Char} {p : Place}
    (h : ∀ q, p = .text q → ¬(q.quote.isSome = true ∧ q.escaped = true ∧ c = '\n')) :
    p.quoting.Uncontinued (passed c p).reverse := by
  have hcode (d : Char) : code.Uncontinued [d] := ⟨fun hd => absurd hd.1 (by decide), trivial⟩
  cases p with
  | text q =>
    simp only [passed, Place.quoting]
    split_ifs
    · trivial
    · exact ⟨h q rfl, trivial⟩
  | slash =>
    simp only [passed, Place.quoting]
    split_ifs
    · trivial
    · exact hcode '/'
    · exact (uncontinued_append (a := ['/'])).2 ⟨hcode '/', hcode c⟩
  | comment opened | star opened =>
    simp only [passed, Place.quoting]
    split_ifs
    · exact hcode c
    · trivial

/-- a text with a continued literal has a first one -/
theorem exists_continued (t : Text) : code.Uncontinued (run (start 1) t).kept.reverse ∨
    ∃ u v q, t = u ++ '\n' :: v ∧ (run (start 1) u).place = .text q ∧ q.quote.isSome = true ∧ q.escaped = true ∧
      code.Uncontinued (run (start 1) u).kept.reverse := by
  induction t using List.reverseRecOn with
  | nil => exact Or.inl trivial
  | append_singleton t c ih =>
    rcases ih with ih | ⟨u, v, q, rfl, h⟩
    swap
    · exact Or.inr ⟨u, v ++ [c], q, by simp, h⟩
    by_cases hc : ∃ q, (run (start 1) t).place = .text q ∧ q.quote.isSome = true ∧ q.escaped = true ∧ c = '\n'
    · obtain ⟨q, hplace, hquote, hescaped, rfl⟩ := hc
      exact Or.inr ⟨t, [], q, rfl, hplace, hquote, hescaped, ih⟩
    · refine Or.inl ?_
      rw [run_append_singleton, kept_step, List.reverse_append, uncontinued_append, quoting_text]
      exact ⟨ih, uncontinued_passed fun q hplace h => hc ⟨q, hplace, h⟩⟩

/-- **So what is left differs by carriage returns only**, and the same comments are left open. -/
theorem returned_strip {t : Text} (h : code.Uncontinued (strip t)) :
    Text.Returned (strip t) (strip (crlf t)) ∧
      (run (start 1) (crlf t)).issues = (run (start 1) t).issues := by
  unfold strip St.text at h ⊢
  rw [List.reverse_append, uncontinued_append] at h
  obtain ⟨hplace, -, hkept⟩ := returned_run h.1
  unfold St.issues
  rw [List.reverse_append, List.reverse_append, hplace]
  exact ⟨hkept.append (.refl _), rfl⟩

end Comment

/-! ## Blocks -/

namespace Block

/-- the same block, but for carriage returns -/
structure Returned (b b' : Block) : Prop where
  prelude : Text.Returned b.prelude b'.prelude
  body : Text.Returned b.body b'.body
  line : b'.line = b.line
  openLine : b'.openLine = b.openLine

/-- the same place, but for carriage returns -/
inductive Place.Returned : Place → Place → Prop where
  | between : Place.Returned .between .between
  | before {l : Nat} {seen seen' : Text} : Text.Returned seen.reverse seen'.reverse →
      Place.Returned (.before l seen) (.before l seen')
  | within {p p' seen seen' : Text} {l o d : Nat} : Text.Returned p p' → Text.Returned seen.reverse seen'.reverse →
      Place.Returned (.within p l o d seen) (.within p' l o d seen')

/-- the same state, but for carriage returns in blocks and what is being collected -/
structure St.Returned (s s' : St) : Prop where
  quoting : s'.quoting = s.quoting
  line : s'.line = s.line
  place : s.place.Returned s'.place
  blocks : List.Forall₂ Block.Returned s.blocks s'.blocks
  issues : s'.issues = s.issues
  statements : s'.statements = s.statements

theorem step_return (s : St) :
    step s '\r' =
      ⟨s.quoting.next '\r', s.line, s.place.keep s.line '\r', s.blocks, s.issues, s.statements⟩ := by
  simp [step, act, isCutBy]

theorem step_newline (s : St) :
    step s '\n' = ⟨s.quoting.next '\n', s.line + 1, s.place.keep s.line '\n', s.blocks,
      if s.quoting.isCutBy '\n' then ⟨.unterminatedString, s.line⟩ :: s.issues else s.issues, s.statements⟩ := by
  simp [step, act]

theorem returned_keep {p p' : Place} (h : p.Returned p') (line : Nat) (c : Char) :
    (p.keep line c).Returned (p'.keep line c) := by
  cases h with
  | between =>
    simp only [Place.keep]
    split
    · exact .between
    · exact .before (.refl _)
  | before h => exact .before (by simpa using h.append (.refl [c]))
  | within hp h => exact .within hp (by simpa using h.append (.refl [c]))

/-- CR LF is collected for a line feed -/
theorem returned_keep_newline {p p' : Place} (h : p.Returned p') (line : Nat) :
    (p.keep line '\n').Returned ((p'.keep line '\r').keep line '\n') := by
  cases h with
  | between => exact .between
  | before h => exact .before (by simpa using h.append .newline)
  | within hp h => exact .within hp (by simpa using h.append .newline)

section
variable {s s' : St} (h : s.Returned s')
include h

theorem returned_openBrace : (openBrace s).Returned (openBrace s') := by
  obtain ⟨q, line, place, blocks, issues, n⟩ := s
  obtain ⟨q', line', place', blocks', issues', n'⟩ := s'
  obtain ⟨rfl, rfl, hplace, hblocks, rfl, rfl⟩ := h
  refine ⟨rfl, rfl, ?_, hblocks, rfl, rfl⟩
  cases hplace with
  | between => exact .within .nil .nil
  | before h => exact .within h .nil
  | within hp h => exact .within hp (by simpa using h.append (.refl ['{']))

theorem returned_closeBrace : (closeBrace s).Returned (closeBrace s') := by
  obtain ⟨q, line, place, blocks, issues, n⟩ := s
  obtain ⟨q', line', place', blocks', issues', n'⟩ := s'
  obtain ⟨rfl, rfl, hplace, hblocks, rfl, rfl⟩ := h
  cases hplace with
  | between => exact ⟨rfl, rfl, .between, hblocks, rfl, rfl⟩
  | before h => exact ⟨rfl, rfl, .between, hblocks, rfl, rfl⟩
  | @within p p' seen seen' l o d hp h =>
    cases d with
    | zero => exact ⟨rfl, rfl, .between, .cons ⟨hp, h, rfl, rfl⟩ hblocks, rfl, rfl⟩
    | succ d => exact ⟨rfl, rfl, .within hp (by simpa using h.append (.refl ['}'])), hblocks, rfl, rfl⟩

theorem returned_semicolon : (semicolon s).Returned (semicolon s') := by
  obtain ⟨q, line, place, blocks, issues, n⟩ := s
  obtain ⟨q', line', place', blocks', issues', n'⟩ := s'
  obtain ⟨rfl, rfl, hplace, hblocks, rfl, rfl⟩ := h
  cases hplace with
  | between => exact ⟨rfl, rfl, .between, hblocks, rfl, rfl⟩
  | before h => exact ⟨rfl, rfl, .between, hblocks, rfl, rfl⟩
  | within hp h => exact ⟨rfl, rfl, .within hp (by simpa using h.append (.refl [';'])), hblocks, rfl, rfl⟩

theorem returned_act (c : Char) : (act s c).Returned (act s' c) := by
  have hkeep := returned_keep h.place s.line c
  rw [act_eq, act_eq, h.quoting]
  cases Mark.ofChar? s.quoting c with
  | none =>
    simp only [h.line]
    exact ⟨rfl, rfl, hkeep, h.blocks, h.issues, h.statements⟩
  | some m =>
    cases m with
    | opens => exact returned_openBrace h
    | closes => exact returned_closeBrace h
    | ends => exact returned_semicolon h
    | cut =>
      simp only [h.line, h.issues]
      exact ⟨rfl, rfl, hkeep, h.blocks, rfl, h.statements⟩

/-- **One character keeps two scans in step.** -/
theorem returned_step (c : Char) : (step s c).Returned (step s' c) := by
  obtain ⟨-, -, hplace, hblocks, hissues, hstatements⟩ := returned_act h c
  refine ⟨?_, ?_, hplace, hblocks, hissues, hstatements⟩
  · simp only [step, h.quoting]
  · simp only [step, h.line]

/-- **So does CR LF for a line feed.** -/
theorem returned_newline (hq : s.quoting.Proper)
    (hc : ¬(s.quoting.quote.isSome = true ∧ s.quoting.escaped = true)) :
    (step s '\n').Returned (step (step s' '\r') '\n') := by
  obtain ⟨hnext, hcut⟩ := next_crlf hq hc
  have hplace := returned_keep_newline h.place s.line
  rw [step_return, step_newline, step_newline, h.quoting, h.line, hnext, hcut, h.issues]
  exact ⟨rfl, rfl, hplace, h.blocks, rfl, h.statements⟩

end

/-- **So does every text without continued literals.** -/
theorem returned_run {a b : Text} (hab : Text.Returned a b) {s s' : St} (h : s.Returned s') (hq : s.quoting.Proper)
    (hc : s.quoting.Uncontinued a) : (run s a).Returned (run s' b) := by
  induction hab generalizing s s' with
  | nil => exact h
  | keep c _ ih => exact ih (returned_step h c) (hq.next c) hc.2
  | insert _ ih => exact ih (returned_newline h hq fun hs => hc.1 ⟨hs.1, hs.2, rfl⟩) (hq.next '\n') hc.2

theorem returned_scan {a b : Text} (hab : Text.Returned a b) (hc : code.Uncontinued a) (line : Nat) :
    List.Forall₂ Block.Returned (scan line a).blocks (scan line b).blocks ∧
    (scan line b).issues = (scan line a).issues ∧ (scan line b).fault = (scan line a).fault ∧
    (scan line b).statements = (scan line a).statements := by
  have hstart : (start line).Returned (start line) := ⟨rfl, rfl, .between, .nil, rfl, rfl⟩
  obtain ⟨-, -, hplace, hblocks, hissues, hstatements⟩ := returned_run hab hstart proper_code hc
  refine ⟨List.rel_reverse hblocks, ?_, ?_, hstatements⟩
  · unfold scan St.finish
    simp only [hissues]
    generalize (run (start line) a).place = place at hplace
    generalize (run (start line) b).place = place' at hplace
    cases hplace with
    | between => rfl
    | @before l seen seen' h =>
      have hblank : seen'.all isBlank = seen.all isBlank := by
        rw [Bool.eq_iff_iff, List.all_eq_true, List.all_eq_true]
        simpa [Blank] using h.blank_iff
      simp only [hblank]
    | within _ _ => rfl
  · unfold scan St.finish
    simp only
    generalize (run (start line) a).place = place at hplace
    generalize (run (start line) b).place = place' at hplace
    cases hplace <;> rfl

end Block

/-! ## Continued literals -/

namespace Quoting

theorem mem_cuts_line {line : Nat} {q : Quoting} {t : Text} {i : Issue} (h : i ∈ cuts line q t) :
    line ≤ i.line ∧ i.line < line + newlines t := by
  induction t generalizing line q with
  | nil => cases h
  | cons c t ih =>
    rw [newlines_cons c t]
    rcases List.mem_append.1 h with h | h
    · split at h
      · rename_i hcut
        have hc : c = '\n' := by
          have hcut := Block.ofChar?_some hcut
          simp only [isCutBy, Bool.and_eq_true, beq_iff_eq] at hcut
          exact hcut.2
        have hone : newlines ['\n'] = 1 := rfl
        rw [List.mem_singleton.1 h, hc, hone]
        exact ⟨Nat.le_refl line, Nat.lt_add_of_pos_right (Nat.add_pos_left Nat.one_pos _)⟩
      · cases h
    · have hline := ih h
      omega

end Quoting

namespace Block

theorem issues_semicolon (s : St) : (semicolon s).issues = s.issues := by
  unfold semicolon
  split <;> rfl

theorem mem_issues_closeBrace {i : Issue} (hi : i.kind = .unterminatedString) (s : St) :
    i ∈ (closeBrace s).issues ↔ i ∈ s.issues := by
  have hstray : i ≠ ⟨.strayCloseBrace, s.line⟩ := fun h => by
    rw [h] at hi
    cases hi
  unfold closeBrace
  split <;> simp [hstray]

/-- **Every cut literal is reported where it is cut**, and no other literal is. -/
theorem mem_issues_run_iff {i : Issue} (hi : i.kind = .unterminatedString) (s : St) (t : Text) :
    i ∈ (run s t).issues ↔ i ∈ s.issues ∨ i ∈ cuts s.line s.quoting t := by
  induction t generalizing s with
  | nil => simp [run, cuts]
  | cons c t ih =>
    have hact : i ∈ (act s c).issues ↔
        i ∈ s.issues ∨ i ∈ (if Mark.ofChar? s.quoting c = some .cut then [⟨.unterminatedString, s.line⟩] else []) := by
      rw [act_eq]
      cases Mark.ofChar? s.quoting c with
      | none => simp
      | some m =>
        cases m with
        | opens => simp [openBrace]
        | closes => simp [mem_issues_closeBrace hi]
        | ends => simp [issues_semicolon]
        | cut => simp [or_comm]
    rw [run_cons, ih, cuts, List.mem_append, ← or_assoc, ← hact, ← line_next]
    rfl

theorem mem_issues_scan_iff {i : Issue} (hi : i.kind = .unterminatedString) (line : Nat) (t : Text) :
    i ∈ (scan line t).issues ↔ i ∈ cuts line code t := by
  have hrun := mem_issues_run_iff hi (start line) t
  have htrail (l : Nat) : i ≠ ⟨.trailingContent, l⟩ := fun h => by
    rw [h] at hi
    cases hi
  have hscan : i ∈ (scan line t).issues ↔ i ∈ (run (start line) t).issues := by
    unfold scan St.finish
    simp only
    split
    · split <;> simp [htrail]
    · simp
  rw [hscan, hrun]
  exact or_iff_right (by simp [start])

end Block

namespace Comment

/-- behind a text that does not end in code, one more character is kept -/
theorem kept_concat {u : Text} {q : Quoting} (hplace : (run (start 1) u).place = .text q) (hq : q.isCode = false)
    (c : Char) : (run (start 1) (u ++ [c])).place = .text (q.next c) ∧
      (run (start 1) (u ++ [c])).kept = c :: (run (start 1) u).kept := by
  rw [run_append_singleton]
  simp [step, hplace, Place.next, passed, hq]

/-- **A continued literal is cut if its line feed gets a carriage return**, and nothing is cut there otherwise. -/
theorem cuts_continued {u v : Text} {q : Quoting} (hplace : (run (start 1) u).place = .text q)
    (hquote : q.quote.isSome = true) (hescaped : q.escaped = true)
    (hbefore : code.Uncontinued (run (start 1) u).kept.reverse) :
    ∃ l, ⟨.unterminatedString, l⟩ ∈ cuts 1 code (strip (crlf (u ++ '\n' :: v))) ∧
      ⟨.unterminatedString, l⟩ ∉ cuts 1 code (strip (u ++ '\n' :: v)) := by
  obtain ⟨k, rfl⟩ : ∃ k, q = ⟨some k, true⟩ := by
    obtain ⟨k, hk⟩ := Option.isSome_iff_exists.1 hquote
    exact ⟨k, by rw [← hk, ← hescaped]⟩
  obtain ⟨hsame, -, hkept⟩ := returned_run hbefore
  have hplace' : (run (start 1) (crlf u)).place = .text ⟨some k, true⟩ := hsame.trans hplace
  have hquoting : code.run (run (start 1) u).kept.reverse = ⟨some k, true⟩ := by
    rw [quoting_text, hplace]
    rfl
  have hquoting' : code.run (run (start 1) (crlf u)).kept.reverse = ⟨some k, true⟩ := by
    rw [quoting_text, hplace']
    rfl
  obtain ⟨w, hstrip⟩ := kept_prefix (u ++ ['\n']) v
  obtain ⟨w', hstrip'⟩ := kept_prefix (crlf u ++ ['\r'] ++ ['\n']) (crlf v)
  obtain ⟨hreturn, hkeptReturn⟩ := kept_concat hplace' rfl '\r'
  rw [(kept_concat hplace rfl '\n').2] at hstrip
  rw [(kept_concat hreturn rfl '\n').2, hkeptReturn] at hstrip'
  have hparts : crlf (u ++ '\n' :: v) = crlf u ++ ['\r'] ++ ['\n'] ++ crlf v := by
    rw [crlf_append, show crlf ('\n' :: v) = '\r' :: '\n' :: crlf v from rfl]
    simp
  rw [hparts, hstrip', show u ++ '\n' :: v = u ++ ['\n'] ++ v by simp, hstrip]
  simp only [List.reverse_cons, List.append_assoc, cuts_append, hquoting, hquoting', hkept.newlines_eq]
  have hcut : Mark.ofChar? ⟨some k, false⟩ '\n' = some .cut := by simp [Mark.ofChar?, isCutBy]
  have huncut (c : Char) : Mark.ofChar? ⟨some k, true⟩ c = none := by simp [Mark.ofChar?, isCode, isCutBy]
  refine ⟨1 + newlines (run (start 1) u).kept.reverse, ?_, ?_⟩
  · have hnext : (⟨some k, true⟩ : Quoting).next '\r' = ⟨some k, false⟩ := rfl
    simp [cuts, hnext, hcut, newlines]
  · intro hmem
    rcases List.mem_append.1 hmem with hmem | hmem
    · exact absurd (mem_cuts_line hmem).2 (Nat.lt_irrefl _)
    · have hone : newlines ['\n'] = 1 := rfl
      simp only [cuts, huncut, hone, reduceCtorEq, if_false, List.nil_append] at hmem
      exact absurd (mem_cuts_line hmem).1 (Nat.not_succ_le_self _)

end Comment

/-! ## Rules -/

/-- the same rule, but for carriage returns in its body -/
structure Rule.Returned (r r' : Rule) : Prop where
  body : Text.Returned r.body r'.body
  rest : r' = { r with body := r'.body }

namespace Stylesheet

variable (config : ParseConfig) (source : SourceId)

theorem toRule?_returned {b b' : Block} (h : b.Returned b') :
    (b.toRule? config source 0 = none ∧ b'.toRule? config source 0 = none) ∨
      ∃ r r', b.toRule? config source 0 = some r ∧ b'.toRule? config source 0 = some r' ∧ r.Returned r' := by
  have hp := normalize_returned h.prelude
  have hb := returned_trim h.body
  have hlines := h.body.takeWhile_blank.newlines_eq
  have hnone : (trim b'.body).isEmpty = (trim b.body).isEmpty := by
    rw [Bool.eq_iff_iff, List.isEmpty_iff, List.isEmpty_iff]
    exact hb.eq_nil_iff
  unfold Block.toRule?
  simp only [hp, hnone, hlines, h.line, h.openLine]
  split
  · exact Or.inl ⟨rfl, rfl⟩
  · exact Or.inr ⟨_, _, rfl, rfl, hb, rfl⟩

theorem rulesOf_returned {bs bs' : List Block} (h : List.Forall₂ Block.Returned bs bs') :
    List.Forall₂ Rule.Returned (rulesOf config source bs) (rulesOf config source bs') ∧
      blanks config source bs' = blanks config source bs := by
  induction h with
  | nil => exact ⟨.nil, rfl⟩
  | @cons b b' bs bs' hb _ ih =>
    obtain ⟨ihr, ihb⟩ := ih
    unfold rulesOf at ihr ⊢
    unfold blanks at ihb ⊢
    rw [List.countP_cons, List.countP_cons, ihb]
    rcases toRule?_returned config source hb with ⟨h, h'⟩ | ⟨r, r', h, h', hr⟩
    · rw [List.filterMap_cons_none h, List.filterMap_cons_none h', h, h']
      exact ⟨ihr, rfl⟩
    · rw [List.filterMap_cons_some h, List.filterMap_cons_some h', h, h']
      exact ⟨.cons hr ihr, rfl⟩

theorem numbered_returned {rs rs' : List Rule} (h : List.Forall₂ Rule.Returned rs rs') (n : Nat) :
    List.Forall₂ Rule.Returned (numbered n rs) (numbered n rs') := by
  induction h generalizing n with
  | nil => exact .nil
  | @cons r r' rs rs' hr _ ih =>
    rw [numbered_cons, numbered_cons]
    refine .cons ⟨hr.body, ?_⟩ (ih (n + 1))
    rw [hr.rest]

theorem rules_crlf {t : Text} (hc : code.Uncontinued (Comment.strip t))
    (hsize : byteSize (crlf t) ≤ config.maxInputSize) :
    let w := parse config source t
    let w' := parse config source (crlf t)
    List.Forall₂ Rule.Returned w.rules w'.rules ∧ w'.issues = w.issues ∧ w'.fault = w.fault ∧
    w'.stats.dropped = w.stats.dropped ∧ w'.stats.statements = w.stats.statements := by
  intro w w'
  obtain ⟨hstrip, hcomments⟩ := Comment.returned_strip hc
  obtain ⟨hblocks, hissues, hfault, hstatements⟩ := Block.returned_scan hstrip hc 1
  obtain ⟨hrules, hblanks⟩ := rulesOf_returned config source hblocks
  obtain ⟨hr, hi, hf, hd, hs⟩ := parseAt_of_size source 1 ((byteSize_le_crlf t).trans hsize)
  obtain ⟨hr', hi', hf', hd', hs'⟩ := parseAt_of_size source 1 hsize
  refine ⟨?_, ?_, hf'.trans (hfault.trans hf.symm), hd'.trans (hblanks.trans hd.symm),
    hs'.trans (hstatements.trans hs.symm)⟩
  · show List.Forall₂ _ (parseAt _ _ _ _).rules (parseAt _ _ _ _).rules
    rw [hr, hr']
    exact numbered_returned hrules 0
  · refine hi'.trans (Eq.trans ?_ hi.symm)
    rw [hcomments]
    exact congrArg _ hissues

/-- a parse reports the literals that are cut in what is left of its text -/
theorem mem_issues_parse {config : ParseConfig} {t : Text} (hsize : byteSize t ≤ config.maxInputSize) (l : Nat) :
    ⟨.unterminatedString, l⟩ ∈ (parse config source t).issues ↔
      ⟨.unterminatedString, l⟩ ∈ cuts 1 code (Comment.strip t) := by
  have hcomment : ⟨.unterminatedString, l⟩ ∉ (Comment.run (Comment.start 1) t).issues := by
    unfold Comment.St.issues
    split <;> simp
  have hissues : (parse config source t).issues = _ := (parseAt_strip source 1 hsize).2.1
  rw [hissues, List.mem_append, or_iff_right hcomment]
  exact Block.mem_issues_scan_iff rfl 1 _

/-- **Line endings do not change the parse if and only if no literal goes on behind a line feed.** Comments are not
looked into, and CR LF in the bodies stands for a line feed. -/
theorem parse_crlf_iff {t : Text} (hsize : byteSize (crlf t) ≤ config.maxInputSize) :
    let w := parse config source t
    let w' := parse config source (crlf t)
    (List.Forall₂ Rule.Returned w.rules w'.rules ∧ w'.issues = w.issues ∧ w'.fault = w.fault ∧
      w'.stats.dropped = w.stats.dropped ∧ w'.stats.statements = w.stats.statements) ↔
    code.Uncontinued (Comment.strip t) := by
  intro w w'
  refine ⟨fun h => ?_, fun h => rules_crlf config source h hsize⟩
  have hissues : w'.issues = w.issues := h.2.1
  rcases Comment.exists_continued t with hkept | ⟨u, v, q, rfl, hplace, hquote, hescaped, hbefore⟩
  · unfold Comment.strip Comment.St.text
    rw [List.reverse_append, uncontinued_append]
    refine ⟨hkept, ?_⟩
    -- a slash held back is in code
    cases (Comment.run (Comment.start 1) t).place with
    | slash => exact ⟨fun hs => absurd hs.2.2 (by decide), trivial⟩
    | _ => trivial
  · -- the first continued literal is reported in one parse only
    obtain ⟨l, hcut, huncut⟩ := Comment.cuts_continued (v := v) hplace hquote hescaped hbefore
    rw [← mem_issues_parse source hsize] at hcut
    rw [← mem_issues_parse source ((byteSize_le_crlf _).trans hsize)] at huncut
    exact absurd (hissues ▸ hcut) huncut

/-- a statement, line feeds in comments, escaped and between selectors, a cut literal, a dropped block and trailing
text -/
def endingsText : Text :=
  "@a 'b';\n/* c\n */ .d,\n.e \x7b\n  f: g\\\n;\n /*\n*/ h: i\n\x7d\n.j \x7b\n\x7d\n.k \x7b l: 'm\n\x7d\nn".toList

theorem parse_crlf_endings :
    let w := parse {} ⟨0⟩ endingsText
    let w' := parse {} ⟨0⟩ (crlf endingsText)
    byteSize (crlf endingsText) ≤ ({} : ParseConfig).maxInputSize ∧
    w.rules.map (·.body) = ["f: g\\\n;\n \n h: i".toList, "l: 'm".toList] ∧
    w'.rules.map (·.body) = ["f: g\\\r\n;\r\n \n h: i".toList, "l: 'm".toList] ∧
    w'.issues = [⟨.unterminatedString, 12⟩, ⟨.trailingContent, 14⟩] ∧
    ((List.Forall₂ Rule.Returned w.rules w'.rules ∧ w'.issues = w.issues ∧ w'.fault = w.fault ∧
      w'.stats.dropped = w.stats.dropped ∧ w'.stats.statements = w.stats.statements) ↔
    code.Uncontinued (Comment.strip endingsText)) ∧
    code.Uncontinued (Comment.strip endingsText) := by
  intro w w'
  have hsize : byteSize (crlf endingsText) ≤ ({} : ParseConfig).maxInputSize := by decide +kernel
  exact ⟨hsize, by decide +kernel, by decide +kernel, by decide +kernel, parse_crlf_iff {} ⟨0⟩ hsize, by decide +kernel⟩

/-- a literal that goes on behind a line feed, and another rule -/
def continuedText : Text := ".a \x7b b: \"c\\\nd\"; \x7d\n.e \x7b f: g \x7d".toList

/-- with CR LF its literal is cut, and the quote that should close it opens one that swallows the rest -/
theorem parse_crlf_continued :
    let w := parse {} ⟨0⟩ continuedText
    let w' := parse {} ⟨0⟩ (crlf continuedText)
    '\r' ∉ continuedText ∧ byteSize (crlf continuedText) ≤ ({} : ParseConfig).maxInputSize ∧
    w.rules.map (·.selector) = [".a".toList, ".e".toList] ∧ w.issues = [] ∧ w.fault = none ∧
    w'.rules = [] ∧ w'.fault = some (.unterminatedBlock 1 1) := by
  decide +kernel

end Stylesheet

end StyleCheck
