/-
Which texts the removal of comments leaves alone: those in which none opens.

- `run_uncommented`: a text without comment openers is kept as it is, and no comment is left open;
- `count_star_run`: conversely, an opener loses a star;
- `strip_eq_self_iff`: the two together, for a whole text.
-/
import StyleCheck.Parse.Comment
import StyleCheck.Proofs.Parse.Marks

namespace StyleCheck.Comment

open Quoting

theorem run_cons (s : St) (c : Char) (t : Text) : run s (c :: t) = run (step s c) t := rfl

/-! ## One character -/

theorem step_slash {q : Quoting} {c : Char} (h : q.isCode = true ∧ c = '/') (line : Nat) (kept : Text) :
    q = code ∧ step ⟨.text q, line, kept⟩ c = ⟨.slash, line, kept⟩ := by
  obtain ⟨hq, rfl⟩ := h
  exact ⟨(isCode_iff q).1 hq, by simp [step, passed, Place.next, hq]⟩

theorem step_text {q : Quoting} {c : Char} (h : ¬(q.isCode = true ∧ c = '/')) (line : Nat) (kept : Text) :
    ∃ line', step ⟨.text q, line, kept⟩ c = ⟨.text (q.next c), line', c :: kept⟩ :=
  ⟨_, by simp only [step, passed, Place.next, if_neg h]; rfl⟩

/-- a star behind a slash that was held back opens a comment -/
theorem step_star (line : Nat) (kept : Text) : step ⟨.slash, line, kept⟩ '*' = ⟨.comment line, line, kept⟩ := rfl

theorem step_slash_slash (line : Nat) (kept : Text) :
    step ⟨.slash, line, kept⟩ '/' = ⟨.slash, line, '/' :: kept⟩ := rfl

theorem step_slash_text {c : Char} (hs : c ≠ '*') (hd : c ≠ '/') (line : Nat) (kept : Text) :
    ∃ line', step ⟨.slash, line, kept⟩ c = ⟨.text (code.next c), line', c :: '/' :: kept⟩ :=
  ⟨_, by simp only [step, passed, Place.next, if_neg hs, if_neg hd]; rfl⟩

theorem next_slash : code.next '/' = code := by decide

/-- a slash in code opens no comment unless a star follows -/
theorem uncommented_slash {t : Text} : code.Uncommented ('/' :: t) ↔ t.head? ≠ some '*' ∧ code.Uncommented t := by
  rw [uncommented_cons, next_slash]
  simp

/-! ## Whole texts -/

/-- **A text without comment openers is kept, and leaves no comment open.** The second half is about texts behind a
slash that was held back. -/
theorem run_uncommented (t : Text) :
    (∀ (q : Quoting) (line : Nat) (kept : Text), q.Uncommented t →
      (run ⟨.text q, line, kept⟩ t).text = kept.reverse ++ t ∧ (run ⟨.text q, line, kept⟩ t).issues = []) ∧
    (∀ (line : Nat) (kept : Text), code.Uncommented ('/' :: t) →
      (run ⟨.slash, line, kept⟩ t).text = kept.reverse ++ '/' :: t ∧ (run ⟨.slash, line, kept⟩ t).issues = []) := by
  induction t with
  | nil =>
    refine ⟨fun q line kept _ => ⟨?_, rfl⟩, fun line kept _ => ⟨?_, rfl⟩⟩
    · simp [run, St.text, Place.held]
    · simp [run, St.text, Place.held]
  | cons c t ih =>
    obtain ⟨ihText, ihSlash⟩ := ih
    refine ⟨?_, ?_⟩
    · intro q line kept h
      rw [run_cons]
      by_cases hc : q.isCode = true ∧ c = '/'
      · obtain ⟨rfl, hs⟩ := step_slash hc line kept
        rw [hs, hc.2]
        exact ihSlash line kept (hc.2 ▸ h)
      · obtain ⟨line', hs⟩ := step_text hc line kept
        rw [hs]
        simpa using ihText (q.next c) line' (c :: kept) (uncommented_cons.1 h).2
    · intro line kept h
      obtain ⟨hstar, h⟩ := uncommented_slash.1 h
      have hstar : c ≠ '*' := by simpa using hstar
      rw [run_cons]
      by_cases hd : c = '/'
      · rw [hd] at h ⊢
        rw [step_slash_slash]
        simpa using ihSlash line ('/' :: kept) h
      · obtain ⟨line', hs⟩ := step_slash_text hstar hd line kept
        rw [hs]
        simpa using ihText (code.next c) line' (c :: '/' :: kept) (uncommented_cons.1 h).2

/-- **A comment opener costs a star.** The second half is about texts behind a slash that was held back. -/
theorem count_star_run (t : Text) :
    (∀ (q : Quoting) (line : Nat) (kept : Text), ¬q.Uncommented t →
      (run ⟨.text q, line, kept⟩ t).text.count '*' < kept.count '*' + t.count '*') ∧
    (∀ (line : Nat) (kept : Text), ¬code.Uncommented ('/' :: t) →
      (run ⟨.slash, line, kept⟩ t).text.count '*' < kept.count '*' + t.count '*') := by
  induction t with
  | nil =>
    have hslash : code.Uncommented ['/'] := by decide
    exact ⟨fun _ _ _ h => absurd trivial h, fun _ _ h => absurd hslash h⟩
  | cons c t ih =>
    obtain ⟨ihText, ihSlash⟩ := ih
    refine ⟨?_, ?_⟩
    · intro q line kept h
      rw [run_cons]
      by_cases hc : q.isCode = true ∧ c = '/'
      · obtain ⟨rfl, hs⟩ := step_slash hc line kept
        rw [hs, hc.2, List.count_cons_of_ne (by decide)]
        exact ihSlash line kept (hc.2 ▸ h)
      · obtain ⟨line', hs⟩ := step_text hc line kept
        have hlost := ihText (q.next c) line' (c :: kept) fun hu =>
          h (uncommented_cons.2 ⟨fun ho => hc ⟨ho.1, ho.2.1⟩, hu⟩)
        rw [hs]
        rw [List.count_cons] at hlost ⊢
        omega
    · intro line kept h
      rw [run_cons]
      by_cases hstar : c = '*'
      · rw [hstar, step_star, List.count_cons_self]
        -- from here on at most what follows is kept, and the star is not part of it
        have hkept := (text_run_sublist ⟨.comment line, line, kept⟩ t).count_le '*'
        simp only [St.text, Place.held, List.nil_append, List.count_append, List.count_reverse] at hkept ⊢
        omega
      by_cases hd : c = '/'
      · rw [hd] at h ⊢
        have hlost := ihSlash line ('/' :: kept) fun hu => h (uncommented_slash.2 ⟨by simp, hu⟩)
        rw [List.count_cons_of_ne (by decide)] at hlost ⊢
        rw [step_slash_slash]
        exact hlost
      · obtain ⟨line', hs⟩ := step_slash_text hstar hd line kept
        have hlost := ihText (code.next c) line' (c :: '/' :: kept) fun hu =>
          h (uncommented_slash.2 ⟨by simpa using hstar, uncommented_cons.2 ⟨fun ho => hd ho.2.1, hu⟩⟩)
        rw [List.count_cons_of_ne hstar, List.count_cons_of_ne (by decide)] at hlost
        rw [hs, List.count_cons_of_ne hstar]
        exact hlost

theorem run_start_uncommented {t : Text} (h : code.Uncommented t) (line : Nat) :
    (run (start line) t).text = t ∧ (run (start line) t).issues = [] :=
  (run_uncommented t).1 code line [] h

theorem count_star_strip {t : Text} (h : ¬code.Uncommented t) : (strip t).count '*' < t.count '*' := by
  have hlost := (count_star_run t).1 code 1 [] h
  rwa [List.count_nil, Nat.zero_add] at hlost

theorem strip_eq_self_iff {t : Text} : strip t = t ↔ code.Uncommented t := by
  constructor
  · intro h
    by_contra hopened
    have hlost := count_star_strip hopened
    rw [h] at hlost
    exact lt_irrefl _ hlost
  · intro h
    exact (run_start_uncommented h 1).1

end StyleCheck.Comment
