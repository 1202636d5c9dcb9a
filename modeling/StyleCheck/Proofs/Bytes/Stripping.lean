/-
The removal of comments removes exactly the comments.

What is left of a comment in code are its line feeds, around it comments are removed as if it were not there; an
unterminated one is reported on the line where it opens. Nothing else is removed, with the shortcut for texts without an
opener or without it.
- `strip_around`, `strip_unterminated`: both for the removal over bytes, which therefore never fails;
- `strip_exact`: everything that is removed, and that no line feed is.
-/
import StyleCheck.Proofs.Bytes.Comments

namespace StyleCheck

open Quoting Text

namespace Comment

theorem line_run (st : St) (t : Text) : (run st t).line = st.line + newlines t := by
  induction t generalizing st with
  | nil => rfl
  | cons c t ih =>
    have hline : (step st c).line = st.line + newlines [c] := by
      by_cases hc : c = '\n' <;> simp [step, newlines, hc]
    rw [run_cons, ih, hline, newlines_cons c t, Nat.add_assoc]

/-- the line of the first character does not matter for where a text leads -/
theorem unlined_run {st st' : St} (h : st.place.unlined = st'.place.unlined) (t : Text) :
    (run st t).place.unlined = (run st' t).place.unlined := by
  induction t generalizing st st' with
  | nil => exact h
  | cons c t ih => exact ih (unlined_next h st.line st'.line c).1

theorem inCode_unlined (p : Place) : p.unlined.inCode = p.inCode := by cases p <;> rfl

theorem inCode_start {u : Text} (hu : (run (start 1) u).place.inCode = true) (line : Nat) :
    (run (start line) u).place.inCode = true := by
  have hplace : (run (start line) u).place.unlined = (run (start 1) u).place.unlined :=
    @unlined_run (start line) (start 1) rfl u
  rw [← inCode_unlined, hplace, inCode_unlined, hu]

end Comment

namespace Bytewise

section
variable {u k : Text} (hu : (Comment.run (Comment.start 1) u).place.inCode = true) (hk : Unclosed k)
include hu hk

/-- **Around a comment**, comments are removed as if it were not there, and what is reported behind it is reported on
its line. -/
theorem strip_around (line : Nat) (v : Text) :
    ∃ issues, strip (line + newlines u + newlines k) v = .ok (Comment.strip v, issues) ∧
      strip line (u ++ commented k ++ v) =
        .ok (Comment.strip u ++ List.replicate (newlines k) '\n' ++ Comment.strip v, issues) := by
  have hrun := Comment.run_commented hk (Comment.inCode_start hu line)
  have hline : (Comment.run (Comment.start line) u).line = line + newlines u := Comment.line_run _ u
  rw [← Comment.run_append, hline] at hrun
  refine ⟨_, by rw [strip_eq, Comment.text_start], ?_⟩
  rw [strip_eq, Comment.text_start, Comment.strip_commented hk hu, Strip.replicate_newlines]
  have hplace : (Comment.run (Comment.start line) (u ++ commented k ++ v)).place =
      (Comment.run (Comment.start (line + newlines u + newlines k)) v).place := by
    rw [Comment.run_append, hrun]
    exact Comment.place_run_kept _ _ _ _ _
  rw [Comment.St.issues, hplace]
  rfl

/-- **An unterminated comment** runs to the end, and is reported on the line where it opens. -/
theorem strip_unterminated (line : Nat) :
    strip line (u ++ '/' :: '*' :: k) =
      .ok (Comment.strip u ++ List.replicate (newlines k) '\n', [⟨.unterminatedComment, line + newlines u⟩]) := by
  have hopener := Comment.run_opener (Comment.inCode_start hu line)
  have hline : (Comment.run (Comment.start line) u).line = line + newlines u := Comment.line_run _ u
  have htext := Comment.text_start line u
  have hparts : u ++ '/' :: '*' :: k = u ++ (['/', '*'] ++ k) := rfl
  rw [strip_eq, hparts, Comment.run_append, Comment.run_append, hopener, Comment.run_open hk, hline, ← htext,
    Strip.replicate_newlines]
  unfold Comment.St.text Comment.St.issues
  split <;> simp [Comment.Place.held]

end

/-- a text in which no comment opens is left as it is -/
theorem strip_uncommented {t : Text} (ht : code.Uncommented t) (line : Nat) :
    strip line t = .ok (t, []) ∧ slowStrip line t = .ok (t, []) := by
  obtain ⟨htext, hissues⟩ := Comment.run_start_uncommented ht line
  rw [strip_eq, slowStrip_eq, htext, hissues]
  exact ⟨rfl, rfl⟩

/-- either way gives the same, and never fails -/
theorem strip_either (line : Nat) (t : Text) :
    ∃ issues, strip line t = .ok (Comment.strip t, issues) ∧ slowStrip line t = .ok (Comment.strip t, issues) := by
  rw [strip_eq, slowStrip_eq, Comment.text_start]
  exact ⟨_, rfl, rfl⟩

/-- **Exactly the comments are removed.** Of one in code, closed or unterminated, its line feeds are left; a text in
which none opens is left as it is, on either way; of no text are line feeds removed or characters added. -/
theorem strip_exact {u k t : Text} (hu : (Comment.run (Comment.start 1) u).place.inCode = true) (hk : Unclosed k)
    (ht : code.Uncommented t) (line : Nat) (v w : Text) :
    (∃ issues, strip (line + newlines u + newlines k) v = .ok (Comment.strip v, issues) ∧
      strip line (u ++ commented k ++ v) =
        .ok (Comment.strip u ++ List.replicate (newlines k) '\n' ++ Comment.strip v, issues)) ∧
    strip line (u ++ '/' :: '*' :: k) =
      .ok (Comment.strip u ++ List.replicate (newlines k) '\n', [⟨.unterminatedComment, line + newlines u⟩]) ∧
    strip line t = .ok (t, []) ∧ slowStrip line t = .ok (t, []) ∧
    (∃ issues, strip line w = .ok (Comment.strip w, issues) ∧ slowStrip line w = .ok (Comment.strip w, issues)) ∧
    newlines (Comment.strip w) = newlines w ∧ (Comment.strip w).length ≤ w.length ∧
    byteSize (Comment.strip w) ≤ byteSize w := by
  obtain ⟨hfast, hslow⟩ := strip_uncommented ht line
  have hsublist : (Comment.strip w).Sublist w := Comment.text_sublist 1 w
  exact ⟨strip_around hu hk line v, strip_unterminated hu hk line, hfast, hslow, strip_either line w,
    Comment.newlines_strip w, hsublist.length_le, byteSize_le_of_sublist hsublist⟩

/-- an opener in a literal and one behind a backslash; the slash at the end is beside the opener that follows -/
def openersText : Text := "a\x7b b: '/*' \x7d\n\\/* /".toList

/-- a slash, a quote, a line feed and an opener; the star at the end is beside the closer that follows -/
def contentsText : Text := "/ ' \n /* *".toList

/-- a closer without an opener, and a comment that is not closed -/
def closerText : Text := "*/ c /*".toList

theorem strip_exact_overlapping :
    (Comment.run (Comment.start 1) openersText).place.inCode = true ∧ Unclosed contentsText ∧
    code.Uncommented openersText ∧
    Comment.strip (openersText ++ commented contentsText ++ closerText) = openersText ++ "\n*/ c ".toList ∧
    (∃ issues, strip (1 + newlines openersText + newlines contentsText) closerText =
        .ok (Comment.strip closerText, issues) ∧
      strip 1 (openersText ++ commented contentsText ++ closerText) =
        .ok (Comment.strip openersText ++ List.replicate (newlines contentsText) '\n' ++ Comment.strip closerText,
          issues)) ∧
    strip 1 (openersText ++ '/' :: '*' :: contentsText) =
      .ok (Comment.strip openersText ++ List.replicate (newlines contentsText) '\n', [⟨.unterminatedComment, 2⟩]) ∧
    strip 1 openersText = .ok (openersText, []) ∧ slowStrip 1 openersText = .ok (openersText, []) := by
  have hu : (Comment.run (Comment.start 1) openersText).place.inCode = true := by decide +kernel
  have hk : Unclosed contentsText := by decide +kernel
  have ht : code.Uncommented openersText := by decide +kernel
  obtain ⟨haround, hunterminated, hfast, hslow, -⟩ := strip_exact hu hk ht 1 closerText []
  exact ⟨hu, hk, ht, by decide +kernel, haround, hunterminated, hfast, hslow⟩

end Bytewise

end StyleCheck
