/-
Comments as parts of a text, and what stays when they are removed twice.

A comment is an opener, a text without a closer, and a closer. In code it is removed but for its line feeds
(`strip_commented`), and nothing else is: a comment that is open was opened in code (`ends_run`).
What stood around a comment comes together, and that may make an opener. `Meets` says when a star is about to be kept
behind a slash in code; by `meets_of_parts` and `parts_of_meets` that is so where only comments without line feeds stand
between the two. Main statement: `strip_strip_eq_iff`, removing comments twice is removing them once on exactly the
texts where this happens nowhere. `strip_glued` is a stylesheet where it does happen, and where rules are lost by it.
-/
import StyleCheck.Proofs.Parse.Literals

namespace StyleCheck

open Quoting Text

namespace Text

/-- `k` as a comment -/
def commented (k : Text) : Text := '/' :: '*' :: k ++ ['*', '/']

/-- whether `k` closes no comment -/
def Unclosed (k : Text) : Prop := ¬['*', '/'] <:+: k

instance (k : Text) : Decidable (Unclosed k) := inferInstanceAs (Decidable (¬['*', '/'] <:+: k))

def lineFeeds (t : Text) : Text := t.filter (· = '\n')

theorem unclosed_cons {c : Char} {k : Text} : Unclosed (c :: k) ↔ (c = '*' → k.head? ≠ some '/') ∧ Unclosed k := by
  unfold Unclosed
  rw [List.infix_cons_iff, not_or, List.cons_prefix_cons]
  refine and_congr_left fun _ => ?_
  cases k with
  | nil => simp
  | cons d k => simp [List.cons_prefix_cons, eq_comm]

theorem unclosed_concat {c : Char} {k : Text} :
    Unclosed (k ++ [c]) ↔ (c = '/' → k.getLast? ≠ some '*') ∧ Unclosed k := by
  have hlast : ['*', '/'] <:+ k ++ [c] ↔ c = '/' ∧ k.getLast? = some '*' := by
    rw [List.getLast?_eq_some_iff]
    constructor
    · rintro ⟨a, ha⟩
      have ha : a ++ ['*'] ++ ['/'] = k ++ [c] := by simpa using ha
      obtain ⟨hk, hc⟩ := List.append_inj' ha rfl
      exact ⟨(List.singleton_inj.1 hc).symm, a, hk.symm⟩
    · rintro ⟨rfl, a, rfl⟩
      exact ⟨a, by simp⟩
  unfold Unclosed
  rw [List.infix_concat_iff, hlast, not_or, not_and]

theorem Unclosed.of_append {a b : Text} (h : Unclosed (a ++ b)) : Unclosed a :=
  fun hc => h (List.infix_append_of_infix_left hc)

theorem newlines_eq_zero_iff {t : Text} : newlines t = 0 ↔ '\n' ∉ t := List.count_eq_zero

theorem lineFeeds_append (a b : Text) : lineFeeds (a ++ b) = lineFeeds a ++ lineFeeds b := List.filter_append a b

theorem lineFeeds_cons (c : Char) (t : Text) : lineFeeds (c :: t) = lineFeeds [c] ++ lineFeeds t :=
  lineFeeds_append [c] t

theorem mem_lineFeeds {c : Char} {t : Text} : c ∈ lineFeeds t ↔ c ∈ t ∧ c = '\n' := by simp [lineFeeds]

theorem lineFeeds_eq_nil_iff {t : Text} : lineFeeds t = [] ↔ '\n' ∉ t := by
  simp only [lineFeeds, List.filter_eq_nil_iff, decide_eq_true_eq]
  exact ⟨fun h hn => h _ hn rfl, fun h c hc hn => h (hn ▸ hc)⟩

theorem blank_lineFeeds (t : Text) : Blank (lineFeeds t) := by
  intro c hc
  rw [(mem_lineFeeds.1 hc).2]
  decide

end Text

namespace Comment

/-! ## One comment -/

/-- in a comment a star is remembered, and line feeds are kept -/
theorem step_comment (opened line : Nat) (kept : Text) (c : Char) :
    step ⟨.comment opened, line, kept⟩ c =
      ⟨if c = '*' then .star opened else .comment opened, line + newlines [c], (lineFeeds [c]).reverse ++ kept⟩ := by
  by_cases hn : c = '\n' <;> simp [step, passed, Place.next, lineFeeds, newlines, hn]

/-- so it is behind a star, if the comment goes on -/
theorem step_star_comment {c : Char} (hd : c ≠ '/') (opened line : Nat) (kept : Text) :
    step ⟨.star opened, line, kept⟩ c =
      ⟨if c = '*' then .star opened else .comment opened, line + newlines [c], (lineFeeds [c]).reverse ++ kept⟩ := by
  by_cases hn : c = '\n' <;> simp [step, passed, Place.next, lineFeeds, newlines, hd, hn]

/-- **A comment ends at its first closer**, and its line feeds are kept. The second half is about what is left of it
behind a star. -/
theorem run_unclosed (opened : Nat) (k : Text) :
    (∀ (line : Nat) (kept : Text), Unclosed k → run ⟨.comment opened, line, kept⟩ (k ++ ['*', '/']) =
      ⟨.text code, line + newlines k, (lineFeeds k).reverse ++ kept⟩) ∧
    (∀ (line : Nat) (kept : Text), Unclosed ('*' :: k) → run ⟨.star opened, line, kept⟩ (k ++ ['*', '/']) =
      ⟨.text code, line + newlines k, (lineFeeds k).reverse ++ kept⟩) := by
  induction k with
  | nil => exact ⟨fun _ _ _ => rfl, fun _ _ _ => rfl⟩
  | cons c k ih =>
    obtain ⟨ihComment, ihStar⟩ := ih
    have hrest (line : Nat) (kept : Text) (h : Unclosed (c :: k)) :
        run ⟨if c = '*' then .star opened else .comment opened, line + newlines [c], (lineFeeds [c]).reverse ++ kept⟩
          (k ++ ['*', '/']) = ⟨.text code, line + newlines (c :: k), (lineFeeds (c :: k)).reverse ++ kept⟩ := by
      rw [newlines_cons c k, lineFeeds_cons c k, List.reverse_append, List.append_assoc, ← Nat.add_assoc]
      split
      · rename_i hc
        exact ihStar _ _ (hc ▸ h)
      · exact ihComment _ _ (unclosed_cons.1 h).2
    refine ⟨?_, ?_⟩
    · intro line kept h
      rw [List.cons_append, run_cons, step_comment, hrest line kept h]
    · intro line kept h
      obtain ⟨hd, h⟩ := unclosed_cons.1 h
      rw [List.cons_append, run_cons, step_star_comment (by simpa using hd), hrest line kept h]

theorem run_opener {st : St} (hst : st.place.inCode = true) :
    run st ['/', '*'] = ⟨.comment st.line, st.line, st.place.held ++ st.kept⟩ := by
  obtain ⟨place, line, kept⟩ := st
  cases place with
  | text q =>
    obtain rfl := (isCode_iff q).1 hst
    rfl
  | slash => rfl
  | comment opened | star opened => cases hst

/-- **In code a comment is removed but for its line feeds.** -/
theorem run_commented {k : Text} (hk : Unclosed k) {st : St} (hst : st.place.inCode = true) :
    run st (commented k) =
      ⟨.text code, st.line + newlines k, (lineFeeds k).reverse ++ (st.place.held ++ st.kept)⟩ := by
  rw [show commented k = ['/', '*'] ++ (k ++ ['*', '/']) by simp [commented], run_append, run_opener hst]
  exact (run_unclosed st.line k).1 st.line _ hk

theorem strip_commented {k u : Text} (hk : Unclosed k) (hu : (run (start 1) u).place.inCode = true) (v : Text) :
    strip (u ++ commented k ++ v) = strip u ++ lineFeeds k ++ strip v := by
  have hrun := run_commented hk hu
  have hplace : (run (start 1) (u ++ commented k)).place = .text code := by rw [run_append, hrun]
  have hstrip : strip (u ++ commented k) = strip u ++ lineFeeds k := by
    unfold strip
    rw [run_append, hrun]
    simp [St.text, Place.held]
  rw [strip_append hplace, hstrip]

/-! ## How a place is reached -/

/-- how the text read ends at a place: a comment was opened in code and is not closed, a slash was read in code -/
def Place.Ends (t : Text) : Place → Prop
  | .text _ => True
  | .slash => ∃ u, t = u ++ ['/'] ∧ (run (start 1) u).place.inCode = true
  | .comment _ => ∃ u k, t = u ++ '/' :: '*' :: k ∧ (run (start 1) u).place.inCode = true ∧ Unclosed k ∧
      k.getLast? ≠ some '*'
  | .star _ => ∃ u k, t = u ++ '/' :: '*' :: (k ++ ['*']) ∧ (run (start 1) u).place.inCode = true ∧
      Unclosed (k ++ ['*'])

/-- a comment goes on with a character that does not close it -/
theorem ends_comment {u k : Text} (hu : (run (start 1) u).place.inCode = true) (hk : Unclosed k) {c : Char}
    (hc : c = '/' → k.getLast? ≠ some '*') (opened : Nat) :
    (if c = '*' then Place.star opened else .comment opened).Ends (u ++ '/' :: '*' :: k ++ [c]) := by
  have hkc : Unclosed (k ++ [c]) := unclosed_concat.2 ⟨hc, hk⟩
  split
  · rename_i hstar
    subst hstar
    exact ⟨u, k, by simp, hu, hkc⟩
  · rename_i hstar
    exact ⟨u, k ++ [c], by simp, hu, hkc, by simpa using hstar⟩

theorem ends_step {t : Text} (h : (run (start 1) t).place.Ends t) (c : Char) :
    (run (start 1) (t ++ [c])).place.Ends (t ++ [c]) := by
  have hplace : (run (start 1) (t ++ [c])).place = (run (start 1) t).place.next (run (start 1) t).line c := by
    rw [run_append_singleton]
    rfl
  rw [hplace]
  cases hp : (run (start 1) t).place with
  | text q =>
    simp only [Place.next]
    split
    · rename_i hc
      exact ⟨t, by rw [hc.2], by rw [hp]; exact hc.1⟩
    · trivial
  | slash =>
    rw [hp] at h
    obtain ⟨u, rfl, hu⟩ := h
    simp only [Place.next]
    split
    · rename_i hc
      exact ⟨u, [], by simp [hc], hu, by decide, by simp⟩
    split
    · rename_i hc
      exact ⟨u ++ ['/'], by rw [hc], by rw [hp]; rfl⟩
    · trivial
  | comment opened =>
    rw [hp] at h
    obtain ⟨u, k, rfl, hu, hk, hlast⟩ := h
    exact ends_comment hu hk (fun _ => hlast) opened
  | star opened =>
    rw [hp] at h
    obtain ⟨u, k, rfl, hu, hk⟩ := h
    by_cases hd : c = '/'
    · rw [hd]
      trivial
    · simp only [Place.next, if_neg hd]
      exact ends_comment hu hk (fun hc => absurd hc hd) opened

/-- **At any place, the text read ends as the place says.** -/
theorem ends_run (t : Text) : (run (start 1) t).place.Ends t := by
  induction t using List.reverseRecOn with
  | nil => trivial
  | append_singleton t c ih => exact ends_step ih c

/-! ## Removing comments twice -/

/-- whether a star is about to be kept behind a slash in code -/
def Meets (t : Text) : Prop :=
  (run (start 1) t).place = .text code ∧ ∃ w, (run (start 1) t).kept = '/' :: w ∧ code.run w.reverse = code

/-- comments without line feeds -/
def Inline (ks : List Text) : Prop := ∀ k ∈ ks, Unclosed k ∧ '\n' ∉ k

theorem inline_cons {k : Text} {ks : List Text} : Inline (k :: ks) ↔ (Unclosed k ∧ '\n' ∉ k) ∧ Inline ks :=
  List.forall_mem_cons

theorem Inline.append {ks ks' : List Text} (h : Inline ks) (h' : Inline ks') : Inline (ks ++ ks') :=
  List.forall_mem_append.2 ⟨h, h'⟩

/-- a comment without line feeds leaves nothing behind -/
theorem run_inline {k : Text} (hk : Unclosed k ∧ '\n' ∉ k) {st : St} (hst : st.place.inCode = true) :
    run st (commented k) = ⟨.text code, st.line, st.place.held ++ st.kept⟩ := by
  rw [run_commented hk.1 hst, lineFeeds_eq_nil_iff.2 hk.2, newlines_eq_zero_iff.2 hk.2]
  rfl

theorem run_inlines {ks : List Text} (hks : Inline ks) (line : Nat) (kept : Text) :
    run ⟨.text code, line, kept⟩ (ks.flatMap commented) = ⟨.text code, line, kept⟩ := by
  induction ks with
  | nil => rfl
  | cons k ks ih =>
    obtain ⟨hk, hks⟩ := inline_cons.1 hks
    rw [List.flatMap_cons, run_append, run_inline hk rfl]
    exact ih hks

theorem run_slash {st : St} (hst : st.place.inCode = true) :
    step st '/' = ⟨.slash, st.line, st.place.held ++ st.kept⟩ := by
  obtain ⟨place, line, kept⟩ := st
  cases place with
  | text q =>
    obtain rfl := (isCode_iff q).1 hst
    rfl
  | slash => rfl
  | comment opened | star opened => cases hst

theorem meets_of_parts {u : Text} {ks : List Text} (hne : ks ≠ []) (hks : Inline ks)
    (hu : (run (start 1) u).place.inCode = true) : Meets (u ++ '/' :: ks.flatMap commented) := by
  obtain ⟨k, ks, rfl⟩ := List.exists_cons_of_ne_nil hne
  obtain ⟨hk, hks⟩ := inline_cons.1 hks
  have hrun : run (start 1) (u ++ '/' :: (k :: ks).flatMap commented) =
      ⟨.text code, (run (start 1) u).line, '/' :: ((run (start 1) u).place.held ++ (run (start 1) u).kept)⟩ := by
    rw [run_append, run_cons, run_slash hu, List.flatMap_cons, run_append, run_inline hk rfl, run_inlines hks]
    rfl
  rw [Meets, hrun]
  exact ⟨rfl, _, rfl, quoting_of_inCode hu⟩

/-- what one character does where the place behind it is plain text and the last character kept is a slash in code:
it closes a comment -/
theorem star_of_meets {t : Text} {c : Char} (h : Meets (t ++ [c])) :
    c = '/' ∧ ∃ opened, (run (start 1) t).place = .star opened := by
  have hquoting := quoting_text 1 t
  rw [Meets, run_append_singleton] at h
  generalize run (start 1) t = s at h hquoting
  obtain ⟨place, line, kept⟩ := s
  obtain ⟨hplace, w, hkept, hw⟩ := h
  cases place with
  | text q =>
    by_cases hc : q.isCode = true ∧ c = '/'
    · rw [(step_slash hc line kept).2] at hplace
      cases hplace
    · obtain ⟨line', hs⟩ := step_text hc line kept
      rw [hs] at hkept
      obtain ⟨rfl, rfl⟩ := List.cons.inj hkept
      have hq : q = code := hquoting.symm.trans hw
      exact absurd ⟨by rw [hq]; rfl, rfl⟩ hc
  | slash =>
    by_cases hstar : c = '*'
    · rw [hstar, step_star] at hplace
      cases hplace
    by_cases hd : c = '/'
    · rw [hd, step_slash_slash] at hplace
      cases hplace
    · obtain ⟨line', hs⟩ := step_slash_text hstar hd line kept
      rw [hs] at hkept
      exact absurd (List.cons.inj hkept).1 hd
  | comment opened =>
    rw [step_comment] at hplace
    split at hplace <;> cases hplace
  | star opened =>
    by_cases hd : c = '/'
    · exact ⟨hd, opened, rfl⟩
    · rw [step_star_comment hd] at hplace
      split at hplace <;> cases hplace

/-- **A star comes to stand behind a slash in code if only comments without line feeds were between them.** -/
theorem parts_of_meets (t : Text) (h : Meets t) :
    ∃ u ks, ks ≠ [] ∧ Inline ks ∧ (run (start 1) u).place.inCode = true ∧ t = u ++ '/' :: ks.flatMap commented := by
  rcases List.eq_nil_or_concat t with rfl | ⟨t', c, ht⟩
  · obtain ⟨-, w, hw, -⟩ := h
    cases hw
  rw [List.concat_eq_append] at ht
  rw [ht] at h
  obtain ⟨rfl, opened, hstar⟩ := star_of_meets h
  have hends := ends_run t'
  rw [hstar] at hends
  obtain ⟨u, k, rfl, hu, hk⟩ := hends
  have hpart : t = u ++ commented k := by simp [ht, commented]
  obtain ⟨-, w, hkept, hw⟩ := h
  rw [← ht, hpart, run_append, run_commented hk.of_append hu] at hkept
  have hinline : '\n' ∉ k := by
    -- otherwise the last line feed would have been kept last
    rw [← lineFeeds_eq_nil_iff, ← List.reverse_eq_nil_iff]
    cases hfeeds : (lineFeeds k).reverse with
    | nil => rfl
    | cons d ds =>
      rw [hfeeds] at hkept
      have hd : d ∈ lineFeeds k := List.mem_reverse.1 (hfeeds ▸ List.mem_cons_self)
      rw [(List.cons.inj hkept).1] at hd
      exact absurd (mem_lineFeeds.1 hd).2 (by decide)
  rw [lineFeeds_eq_nil_iff.2 hinline, List.reverse_nil, List.nil_append] at hkept
  have hends := ends_run u
  cases hplace : (run (start 1) u).place with
  | text q =>
    rw [hplace] at hu hkept
    obtain rfl := (isCode_iff q).1 hu
    obtain ⟨v, ks, -, hks, hv, hmore⟩ := parts_of_meets u ⟨hplace, w, hkept, hw⟩
    exact ⟨v, ks ++ [k], by simp, hks.append (inline_cons.2 ⟨⟨hk.of_append, hinline⟩, by simp [Inline]⟩), hv,
      by simp [hpart, hmore]⟩
  | slash =>
    rw [hplace] at hends
    obtain ⟨v, rfl, hv⟩ := hends
    exact ⟨v, [k], by simp, inline_cons.2 ⟨⟨hk.of_append, hinline⟩, by simp [Inline]⟩, hv, by simp [hpart]⟩
  | comment opened | star opened =>
    rw [hplace] at hu
    cases hu
termination_by t.length
decreasing_by
  rw [hpart]
  simp [commented]

/-- one more character opens no comment, unless it is a star behind a slash in code -/
theorem uncommented_concat {q : Quoting} {t : Text} (h : q.Uncommented t) {c : Char}
    (hc : c = '*' → ∀ w, t = w ++ ['/'] → q.run w ≠ code) : q.Uncommented (t ++ [c]) := by
  induction t generalizing q with
  | nil => exact ⟨by simp, trivial⟩
  | cons d t ih =>
    obtain ⟨hd, ht⟩ := uncommented_cons.1 h
    refine uncommented_cons.2 ⟨?_, ih ht fun hstar w hw => ?_⟩
    · rintro ⟨hq, rfl, hhead⟩
      cases t with
      | nil => exact hc (by simpa using hhead) [] rfl ((isCode_iff q).1 hq)
      | cons e t => exact hd ⟨hq, rfl, hhead⟩
    · exact hc hstar (d :: w) (by rw [hw]; rfl)

theorem uncommented_append_of_blank {q : Quoting} {a g : Text} (h : q.Uncommented a) (hg : Blank g) :
    q.Uncommented (a ++ g) := by
  refine h.append ?_ fun _ hstar => ?_
  · rw [← List.append_nil g]
    exact (uncommented_append_blank hg []).2 trivial
  · exact absurd (hg _ (List.mem_of_head? hstar)) (by decide)

/-- **What is kept opens no comment as long as no star meets a slash.** -/
theorem uncommented_kept (t : Text) :
    code.Uncommented (run (start 1) t).kept.reverse ∨ ∃ a b, t = a ++ '*' :: b ∧ Meets a := by
  induction t using List.reverseRecOn with
  | nil => exact Or.inl trivial
  | append_singleton t c ih =>
    rcases ih with ih | ⟨a, b, rfl, h⟩
    swap
    · exact Or.inr ⟨a, b ++ [c], by simp, h⟩
    by_cases hmeets : c = '*' ∧ Meets t
    · exact Or.inr ⟨t, [], by rw [hmeets.1], hmeets.2⟩
    refine Or.inl ?_
    have hquoting := quoting_text 1 t
    rw [Meets] at hmeets
    rw [run_append_singleton]
    generalize run (start 1) t = s at ih hmeets hquoting
    obtain ⟨place, line, kept⟩ := s
    cases place with
    | text q =>
      by_cases hc : q.isCode = true ∧ c = '/'
      · rw [(step_slash hc line kept).2]
        exact ih
      · obtain ⟨line', hs⟩ := step_text hc line kept
        rw [hs, List.reverse_cons]
        refine uncommented_concat ih fun hstar w hw hcode => hmeets ⟨hstar, ?_, w.reverse, ?_, by simpa using hcode⟩
        · have hq : q = code := by rw [← show code.run kept.reverse = q from hquoting, hw, run_concat, hcode, next_slash]
          rw [hq]
        · simpa using congrArg List.reverse hw
    | slash =>
      by_cases hstar : c = '*'
      · rw [hstar, step_star]
        exact ih
      have hslash : code.Uncommented (kept.reverse ++ ['/']) := uncommented_concat ih fun h => absurd h (by decide)
      by_cases hd : c = '/'
      · rw [hd, step_slash_slash, List.reverse_cons]
        exact hslash
      · obtain ⟨line', hs⟩ := step_slash_text hstar hd line kept
        rw [hs, List.reverse_cons, List.reverse_cons]
        exact uncommented_concat hslash fun h => absurd h hstar
    | comment opened =>
      rw [step_comment, List.reverse_append, List.reverse_reverse]
      exact uncommented_append_of_blank ih (blank_lineFeeds [c])
    | star opened =>
      by_cases hd : c = '/'
      · rw [hd]
        exact ih
      · rw [step_star_comment hd, List.reverse_append, List.reverse_reverse]
        exact uncommented_append_of_blank ih (blank_lineFeeds [c])

/-- a star that is kept behind a slash in code opens a comment in what is kept -/
theorem not_uncommented_of_meets {a : Text} (h : Meets a) (b : Text) : ¬code.Uncommented (strip (a ++ '*' :: b)) := by
  obtain ⟨hplace, w, hkept, hw⟩ := h
  have hstep : (run (start 1) (a ++ ['*'])).kept = '*' :: '/' :: w := by
    rw [run_append_singleton]
    show passed '*' (run (start 1) a).place ++ (run (start 1) a).kept = _
    rw [hplace, hkept]
    rfl
  obtain ⟨v, hv⟩ := kept_prefix (a ++ ['*']) b
  have hstrip : strip (a ++ '*' :: b) = w.reverse ++ '/' :: '*' :: v := by
    rw [hstep] at hv
    simpa using hv
  intro hu
  rw [hstrip] at hu
  have hopen := hu.of_append.2
  rw [hw] at hopen
  exact (uncommented_slash.1 hopen).1 rfl

/-- whether a slash in code and a star come together, that is, have nothing but comments without line feeds between
them -/
def Glued (t : Text) : Prop :=
  ∃ u ks v, ks ≠ [] ∧ Inline ks ∧ (run (start 1) u).place.inCode = true ∧
    t = u ++ '/' :: ks.flatMap commented ++ '*' :: v

/-- **Removing comments twice is removing them once, unless a slash and a star come together.** -/
theorem strip_strip_eq_iff (t : Text) : strip (strip t) = strip t ↔ ¬Glued t := by
  rw [strip_eq_self_iff]
  constructor
  · rintro hu ⟨u, ks, v, hne, hks, hu', rfl⟩
    exact not_uncommented_of_meets (meets_of_parts hne hks hu') v hu
  · intro hglued
    have hkept : code.Uncommented (run (start 1) t).kept.reverse := by
      refine (uncommented_kept t).resolve_right ?_
      rintro ⟨a, b, rfl, hmeets⟩
      obtain ⟨u, ks, hne, hks, hu, rfl⟩ := parts_of_meets a hmeets
      exact hglued ⟨u, ks, b, hne, hks, hu, rfl⟩
    unfold strip St.text
    rw [List.reverse_append]
    cases (run (start 1) t).place with
    | slash => exact uncommented_concat hkept fun h => absurd h (by decide)
    | _ => simpa [Place.held] using hkept

/-- a media block with two rules, in the first of which a slash and a star come together -/
def gluedText : Text := "@media x { .a { //**/* b: c } .d { e: f } }".toList

/-- the block has no inner rules any more: the comment opened by the removal swallows them -/
theorem strip_glued :
    strip (strip gluedText) ≠ strip gluedText ∧
    (Stylesheet.parse {} ⟨0⟩ gluedText).issues = [] ∧
    (Stylesheet.parse {} ⟨0⟩ gluedText).rules.map (fun r => (Stylesheet.parseBody {} r).rules) = [[]] ∧
    (Stylesheet.parse {} ⟨0⟩ gluedText).rules.map (fun r => (Stylesheet.parseBody {} r).fault) =
      [some (.unterminatedBlock 1 1)] := by
  decide +kernel

end Comment

end StyleCheck
