/-
The removal of comments, one text after the other.

What is kept of a text depends on the place it is read from, on nothing that was kept before and on no line
(`text_run`). So comments are removed part by part, as long as a part does not end in a comment or in the middle of what
may open one. The scanner behind the removal reads literals as the removal does: a comment is opened in code, and the
line feeds that are kept of it change nothing.
- `quoting_strip`: what is kept ends inside the literals and escapes that the text ends in;
- `strip_append`: removal from two texts, where the first ends in plain text;
- `strip_concat`: one more character that neither opens nor closes a comment;
- `strip_prefix`: a slash at its end aside, what is kept of a text stays;
- `newlines_strip`: no line feed is lost.
-/
import StyleCheck.Proofs.Parse.Comments

namespace StyleCheck.Comment

open Quoting Text

/-- how the next character is read; around a comment and behind a slash held back there is code -/
def Place.quoting : Place → Quoting
  | .text q => q
  | _ => code

/-- the place, whichever line a comment was opened on -/
def Place.unlined : Place → Place
  | .comment _ => .comment 0
  | .star _ => .star 0
  | p => p

/-! ## One character -/

theorem next_newline : code.next '\n' = code := by decide

/-- a comment lets line feeds through, and they leave code as it is -/
theorem run_newline (c : Char) {kept : Text} (h : code.run kept.reverse = code) :
    code.run ((if c = '\n' then [c] else []) ++ kept).reverse = code := by
  split
  · rename_i hc
    rw [hc, List.singleton_append, List.reverse_cons, run_concat, h, next_newline]
  · exact h

theorem quoting_step {s : St} (h : code.run s.kept.reverse = s.place.quoting) (c : Char) :
    code.run (step s c).kept.reverse = (step s c).place.quoting := by
  obtain ⟨place, line, kept⟩ := s
  cases place with
  | text q =>
    by_cases hc : q.isCode = true ∧ c = '/'
    · obtain ⟨rfl, hs⟩ := step_slash hc line kept
      rw [hs]
      exact h
    · obtain ⟨line', hs⟩ := step_text hc line kept
      rw [hs, List.reverse_cons, run_concat, h]
      rfl
  | slash =>
    have h : code.run kept.reverse = code := h
    by_cases hstar : c = '*'
    · rw [hstar, step_star]
      exact h
    by_cases hd : c = '/'
    · rw [hd, step_slash_slash, List.reverse_cons, run_concat, h]
      exact next_slash
    · obtain ⟨line', hs⟩ := step_slash_text hstar hd line kept
      rw [hs, List.reverse_cons, List.reverse_cons, run_concat, run_concat, h, next_slash]
      rfl
  | comment opened =>
    have hp : (step ⟨.comment opened, line, kept⟩ c).place.quoting = code := by
      simp only [step, Place.next]
      split <;> rfl
    exact (run_newline c h).trans hp.symm
  | star opened =>
    have hp : (step ⟨.star opened, line, kept⟩ c).place.quoting = code := by
      simp only [step, Place.next]
      split_ifs <;> rfl
    exact (run_newline c h).trans hp.symm

theorem unlined_next {p p' : Place} (h : p.unlined = p'.unlined) (line line' : Nat) (c : Char) :
    (p.next line c).unlined = (p'.next line' c).unlined ∧ passed c p = passed c p' ∧ p.held = p'.held := by
  cases p <;> cases p' <;> simp only [Place.unlined, reduceCtorEq, Place.text.injEq] at h
  case text.text => exact h ▸ ⟨rfl, rfl, rfl⟩
  case slash.slash => exact ⟨by simp only [Place.next]; split_ifs <;> rfl, rfl, rfl⟩
  case comment.comment => exact ⟨by simp only [Place.next]; split <;> rfl, rfl, rfl⟩
  case star.star => exact ⟨by simp only [Place.next]; split_ifs <;> rfl, rfl, rfl⟩

/-- a line feed is let through wherever it stands -/
theorem newlines_passed (line : Nat) (c : Char) (p : Place) :
    newlines ((p.next line c).held ++ passed c p) = newlines p.held + newlines [c] := by
  cases p with
  | text q => by_cases h : q.isCode = true ∧ c = '/' <;> simp [passed, Place.next, Place.held, newlines, h]
  | slash =>
    by_cases h : c = '*' <;> by_cases h' : c = '/' <;>
      simp [passed, Place.next, Place.held, newlines, List.count_cons, h, h']
  | comment o =>
    by_cases h : c = '\n' <;> by_cases h' : c = '*' <;> simp [passed, Place.next, Place.held, newlines, h, h']
  | star o =>
    by_cases h : c = '\n' <;> by_cases h' : c = '/' <;> by_cases h'' : c = '*' <;>
      simp [passed, Place.next, Place.held, newlines, h, h', h'']

/-! ## Whole texts -/

theorem run_append_singleton (s : St) (t : Text) (c : Char) : run s (t ++ [c]) = step (run s t) c := run_append s t [c]

theorem newlines_reverse (t : Text) : newlines t.reverse = newlines t := List.count_reverse

theorem newlines_text (s : St) (t : Text) : newlines (run s t).text = newlines s.text + newlines t := by
  induction t generalizing s with
  | nil => rfl
  | cons c t ih =>
    have hs : newlines (step s c).text = newlines s.text + newlines [c] := by
      have h := newlines_passed s.line c s.place
      simp only [St.text, step, newlines_reverse, newlines_append] at h ⊢
      omega
    rw [run_cons, ih, hs, newlines_cons c t, Nat.add_assoc]

/-- **What is kept of a text depends on the place it is read from**, on nothing that was kept before and on no line. -/
theorem text_run (s s' : St) (h : s.place.unlined = s'.place.unlined) (t : Text) :
    ∃ w, (run s t).text = s.kept.reverse ++ w ∧ (run s' t).text = s'.kept.reverse ++ w := by
  induction t generalizing s s' with
  | nil =>
    have hh := (unlined_next h 0 0 ' ').2.2
    exact ⟨s.place.held.reverse, by simp [run, St.text], by simp [run, St.text, hh]⟩
  | cons c t ih =>
    obtain ⟨hn, hp, -⟩ := unlined_next h s.line s'.line c
    obtain ⟨w, hw, hw'⟩ := ih (step s c) (step s' c) hn
    refine ⟨(passed c s.place).reverse ++ w, ?_, ?_⟩
    · rw [run_cons, hw]
      simp [step]
    · rw [run_cons, hw', hp]
      simp [step]

/-- the line of the first character does not matter -/
theorem text_start (line : Nat) (t : Text) : (run (start line) t).text = strip t := by
  obtain ⟨w, hw, hw'⟩ := text_run (start line) (start 1) rfl t
  exact hw.trans hw'.symm

/-- **What is kept ends inside the literals and escapes that the text ends in.** -/
theorem quoting_text (line : Nat) (t : Text) :
    code.run (run (start line) t).kept.reverse = (run (start line) t).place.quoting := by
  induction t using List.reverseRecOn with
  | nil => rfl
  | append_singleton t c ih =>
    rw [run_append_singleton]
    exact quoting_step ih c

theorem quoting_strip (t : Text) : code.run (strip t) = (run (start 1) t).place.quoting := by
  have h := quoting_text 1 t
  unfold strip St.text
  cases hp : (run (start 1) t).place <;> rw [hp] at h <;> simp only [Place.held, Place.quoting] at h ⊢
  case slash => rw [List.singleton_append, List.reverse_cons, run_concat, h, next_slash]
  all_goals exact h

theorem newlines_strip (t : Text) : newlines (strip t) = newlines t := by
  have h := newlines_text (start 1) t
  rwa [show newlines (start 1).text = 0 from rfl, Nat.zero_add] at h

/-! ## Comments that are closed -/

theorem issues_eq_nil {s : St} (h : ∀ i ∈ s.issues, i.kind ≠ .unterminatedComment) : s.issues = [] := by
  unfold St.issues at h ⊢
  split
  · rename_i hp
    simp [hp] at h
  · rename_i hp
    simp [hp] at h
  · rfl

/-- a text that does not end in a comment ends in text, or in a slash that is held back -/
theorem place_of_issues {s : St} (h : s.issues = []) : (∃ q, s.place = .text q) ∨ s.place = .slash := by
  cases hp : s.place <;> simp [St.issues, hp] at h ⊢

/-! ## Two texts -/

/-- **Comments are removed from two texts one after the other** if the first ends in plain text. -/
theorem strip_append {a : Text} (h : (run (start 1) a).place = .text code) (b : Text) :
    strip (a ++ b) = strip a ++ strip b := by
  obtain ⟨w, hw, hw'⟩ := text_run (run (start 1) a) (start 1) (by rw [h]; rfl) b
  have ha : strip a = (run (start 1) a).kept.reverse := by simp [strip, St.text, h, Place.held]
  have hb : strip b = w := hw'
  rw [ha, hb, ← hw, strip, run_append]

/-- behind a closed comment, a character that opens none and is no slash is kept -/
theorem strip_concat {t : Text} (h : (run (start 1) t).issues = []) {c : Char} (hd : c ≠ '/') (hs : c ≠ '*') :
    strip (t ++ [c]) = strip t ++ [c] := by
  unfold strip
  rw [run_append]
  generalize run (start 1) t = s at h
  obtain ⟨place, line, kept⟩ := s
  rcases place_of_issues h with ⟨q, rfl⟩ | rfl
  · obtain ⟨line', hstep⟩ := step_text (q := q) (fun hc => hd hc.2) line kept
    show (step ⟨.text q, line, kept⟩ c).text = _
    rw [hstep]
    simp [St.text, Place.held]
  · obtain ⟨line', hstep⟩ := step_slash_text hs hd line kept
    show (step ⟨.slash, line, kept⟩ c).text = _
    rw [hstep]
    simp [St.text, Place.held]

/-- what was kept of a text comes first in what is kept of more -/
theorem kept_prefix (a b : Text) : ∃ w, strip (a ++ b) = (run (start 1) a).kept.reverse ++ w := by
  obtain ⟨w, hw, -⟩ := text_run (run (start 1) a) (run (start 1) a) rfl b
  exact ⟨w, by rw [strip, run_append, hw]⟩

/-- **What is kept of a text stays when more is read**, a slash at its end aside. -/
theorem strip_prefix (a b : Text) : ∃ v w, (strip a = v ∨ strip a = v ++ ['/']) ∧ strip (a ++ b) = v ++ w := by
  obtain ⟨w, hw⟩ := kept_prefix a b
  refine ⟨(run (start 1) a).kept.reverse, w, ?_, hw⟩
  unfold strip St.text
  cases (run (start 1) a).place with
  | slash => exact Or.inr (by simp [Place.held])
  | _ => exact Or.inl rfl

end StyleCheck.Comment
