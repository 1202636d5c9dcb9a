/-
Texts that differ in their blanks only.

Normal forms and rendered bodies keep the words of a text and write other blanks between them. `Respaced a b` says that
`b` is `a` with some of its blanks exchanged, where a line feed never comes where there was none and comes first if at
all; `Retouched a b` allows blanks to be dropped at both ends as well. What a lexer makes of a text survives both.
- `retouched_normalize`: the normal form of a prelude is the prelude retouched;
- `retouched_tidy`: so is a body as it is rendered;
- `bodyLines_tidy`: rendering a rendered body changes nothing.
-/
import StyleCheck.Proofs.Text.Blank
import StyleCheck.Rule

namespace StyleCheck.Text

/-- the blanks `g'` may stand for the blanks `g` -/
structure Gap (g g' : Text) : Prop where
  old_nonempty : g ≠ []
  old_blank : Blank g
  new_nonempty : g' ≠ []
  new_blank : Blank g'
  newline : '\n' ∈ g' → '\n' ∈ g
  newline_first : '\n' ∉ g'.tail

/-- `b` is `a` with some blanks exchanged -/
inductive Respaced : Text → Text → Prop where
  | nil : Respaced [] []
  | keep {a b : Text} (c : Char) : Respaced a b → Respaced (c :: a) (c :: b)
  | gap {a b g g' : Text} : Gap g g' → Respaced a b → Respaced (g ++ a) (g' ++ b)

theorem Respaced.append {a b a' b' : Text} (h : Respaced a b) (h' : Respaced a' b') : Respaced (a ++ a') (b ++ b') := by
  induction h with
  | nil => exact h'
  | keep c _ ih => exact ih.keep c
  | gap hg _ ih =>
    rw [List.append_assoc, List.append_assoc]
    exact ih.gap hg

theorem Respaced.refl (t : Text) : Respaced t t := by
  induction t with
  | nil => exact .nil
  | cons c t ih => exact ih.keep c

theorem Respaced.eq_nil {a b : Text} (h : Respaced a b) (hb : b = []) : a = [] := by
  cases h with
  | nil => rfl
  | keep c h => cases hb
  | gap hg h => exact absurd (List.append_eq_nil_iff.1 hb).1 hg.new_nonempty

/-- `b` is a middle part of `a` with some blanks exchanged, and only blanks were around it -/
def Retouched (a b : Text) : Prop :=
  ∃ lead core tail, a = lead ++ core ++ tail ∧ Blank lead ∧ Blank tail ∧ Respaced core b

theorem Retouched.widen {a b : Text} (h : Retouched a b) {lead tail : Text} (hl : Blank lead) (ht : Blank tail) :
    Retouched (lead ++ a ++ tail) b := by
  obtain ⟨l, core, t, rfl, hl', ht', hr⟩ := h
  exact ⟨lead ++ l, core, t ++ tail, by simp, blank_append.2 ⟨hl, hl'⟩, blank_append.2 ⟨ht', ht⟩, hr⟩

theorem Retouched.blank {a b : Text} (h : Retouched a b) (hb : b = []) : Blank a := by
  obtain ⟨lead, core, tail, rfl, hl, ht, hr⟩ := h
  rw [hr.eq_nil hb, List.append_nil]
  exact blank_append.2 ⟨hl, ht⟩

theorem Retouched.join {a b a' b' m m' : Text} (h : Retouched a b) (h' : Retouched a' b')
    (hm : ∀ g g', Blank g → Blank g' → Gap (g ++ m ++ g') m') : Retouched (a ++ m ++ a') (b ++ m' ++ b') := by
  obtain ⟨lead, core, t, rfl, hl, ht, hr⟩ := h
  obtain ⟨l, core', tail, rfl, hl', ht', hr'⟩ := h'
  refine ⟨lead, core ++ ((t ++ m ++ l) ++ core'), tail, by simp, hl, ht', ?_⟩
  rw [List.append_assoc b]
  exact hr.append (hr'.gap (hm t l ht hl'))

/-- a further character in front of a solid one -/
theorem Retouched.cons_solid {d : Char} {t b : Text} (h : Retouched (d :: t) b) (hd : isBlank d = false) (c : Char) :
    Retouched (c :: d :: t) (c :: b) := by
  obtain ⟨lead, core, tail, he, hl, ht, hr⟩ := h
  cases lead with
  | nil => exact ⟨[], c :: core, tail, by rw [he]; rfl, blank_nil, ht, hr.keep c⟩
  | cons x lead =>
    obtain rfl : d = x := (List.cons.inj he).1
    rw [(blank_cons.1 hl).1] at hd
    cases hd

theorem Retouched.refl (t : Text) : Retouched t t :=
  ⟨[], t, [], by simp, blank_nil, blank_nil, .refl t⟩

theorem retouched_trim (t : Text) : Retouched t (trim t) := by
  obtain ⟨lead, tail, ht, hl, he⟩ := trim_decompose t
  exact ⟨lead, trim t, tail, ht, hl, he, .refl _⟩

/-! ## Normal forms -/

theorem isWord_singleton {c : Char} (hc : isBlank c = false) : IsWord [c] := ⟨by simp, by simpa using hc⟩

/-- a word that ends after one character -/
theorem normalize_cons_solid_blank {c d : Char} (hc : isBlank c = false) (hd : isBlank d = true) (t : Text) :
    Selector.normalize (c :: d :: t) =
      if words t = [] then [c] else [c] ++ [' '] ++ Selector.normalize t := by
  have hw : words (c :: d :: t) = [c] :: words t := by
    have h := words_append_blank [c] hd t
    rwa [words_of_isWord (isWord_singleton hc)] at h
  unfold Selector.normalize
  rw [hw]
  split
  · rename_i h
    rw [h]
    rfl
  · rename_i h
    exact List.intercalate_cons_of_ne_nil h

theorem normalize_cons_solid_solid (c : Char) {d : Char} (hc : isBlank c = false) (hd : isBlank d = false) (t : Text) :
    Selector.normalize (c :: d :: t) = c :: Selector.normalize (d :: t) := by
  obtain ⟨w, ws, hw⟩ := List.exists_cons_of_ne_nil (List.splitOnP_ne_nil isBlank t)
  unfold Selector.normalize words
  rw [List.splitOnP_cons_eq_if_modifyHead, List.splitOnP_cons_eq_if_modifyHead, hw]
  simp only [hc, hd, Bool.false_eq_true, if_false, List.modifyHead_cons]
  rw [List.filter_cons_of_pos (by simp), List.filter_cons_of_pos (by simp)]
  exact List.intercalate_cons_cons_left

theorem gap_space {g g' : Text} {d : Char} (hg : Blank g) (hd : isBlank d = true) (hg' : Blank g') :
    Gap (g ++ [d] ++ g') [' '] where
  old_nonempty := by simp
  old_blank := by
    rw [List.append_assoc, blank_append, blank_append]
    exact ⟨hg, by simpa [Blank] using hd, hg'⟩
  new_nonempty := by simp
  new_blank := by decide
  newline := by simp
  newline_first := by simp

/-- **The normal form of a prelude is the prelude retouched.** -/
theorem retouched_normalize : ∀ t : Text, Retouched t (Selector.normalize t)
  | [] => .refl []
  | [c] => by
    by_cases hc : isBlank c = true
    · rw [Selector.normalize_cons_blank hc]
      exact (Retouched.refl []).widen (blank_cons.2 ⟨hc, blank_nil⟩) blank_nil
    · rw [Bool.not_eq_true] at hc
      unfold Selector.normalize
      rw [words_of_isWord (isWord_singleton hc)]
      exact .refl [c]
  | c :: d :: t => by
    -- the second character tells whether a word goes on, and behind its end the words may be over
    by_cases hc : isBlank c = true
    · rw [Selector.normalize_cons_blank hc]
      simpa using (retouched_normalize (d :: t)).widen (blank_cons.2 ⟨hc, blank_nil⟩) blank_nil
    rw [Bool.not_eq_true] at hc
    by_cases hd : isBlank d = true
    · have ih := retouched_normalize t
      rw [normalize_cons_solid_blank hc hd]
      split
      · rename_i hw
        have ht : Blank t := ih.blank (by unfold Selector.normalize; rw [hw]; rfl)
        simpa using (Retouched.refl [c]).widen blank_nil (blank_cons.2 ⟨hd, ht⟩)
      · exact (Retouched.refl [c]).join ih fun g g' hg hg' => gap_space hg hd hg'
    · rw [Bool.not_eq_true] at hd
      rw [normalize_cons_solid_solid c hc hd]
      exact (retouched_normalize (d :: t)).cons_solid hd c

end StyleCheck.Text

namespace StyleCheck.Rule

open Text

/-! ## Rendered bodies -/

/-- what comes between two lines of a rendered body -/
def indent : Text := ['\n', ' ', ' ', ' ', ' ']

/-- a body as it is rendered: its lines trimmed, without the blank ones, and indented -/
def tidy (body : Text) : Text := indent.intercalate (bodyLines body)

theorem gap_indent {g g' : Text} (hg : Blank g) (hg' : Blank g') : Gap (g ++ ['\n'] ++ g') indent where
  old_nonempty := by simp
  old_blank := by
    rw [List.append_assoc, blank_append, blank_append]
    exact ⟨hg, by decide, hg'⟩
  new_nonempty := by simp [indent]
  new_blank := by decide
  newline := by simp
  newline_first := by simp [indent]

theorem retouched_lines (ls : List Text) :
    Retouched (['\n'].intercalate ls) (indent.intercalate ((ls.map trim).filter (!·.isEmpty))) := by
  induction ls with
  | nil => exact .refl []
  | cons l ls ih =>
    cases ls with
    | nil =>
      have h := retouched_trim l
      by_cases hl : trim l = []
      · rw [hl] at h
        simpa [hl] using h
      · simpa [hl] using h
    | cons l' ls =>
      rw [List.intercalate_cons_cons, List.map_cons, List.filter_cons]
      split
      · by_cases hr : ((l' :: ls).map trim).filter (!·.isEmpty) = []
        · have hb : Blank (['\n'] ++ ['\n'].intercalate (l' :: ls)) := by
            rw [hr] at ih
            exact blank_append.2 ⟨by decide, ih.blank rfl⟩
          rw [hr, List.intercalate_singleton, List.append_assoc]
          exact (retouched_trim l).widen blank_nil hb
        · rw [List.intercalate_cons_of_ne_nil hr]
          exact (retouched_trim l).join ih fun g g' => gap_indent
      · -- a blank line goes with its line feed
        rename_i hl
        have hb : Blank (l ++ ['\n']) := by
          refine blank_append.2 ⟨(retouched_trim l).blank (by simpa using hl), by decide⟩
        simpa using ih.widen hb blank_nil

/-- **A rendered body is the body retouched.** -/
theorem retouched_tidy (body : Text) : Retouched body (tidy body) := by
  have h := retouched_lines (body.splitOn '\n')
  rwa [List.intercalate_splitOn] at h

/-! ## The lines of a body -/

structure IsLine (l : Text) : Prop where
  nonempty : l ≠ []
  tight : Tight l
  whole : '\n' ∉ l

theorem isLine_of_mem_bodyLines {body l : Text} (h : l ∈ bodyLines body) : IsLine l := by
  obtain ⟨h, hne⟩ := List.mem_filter.1 h
  obtain ⟨w, hw, rfl⟩ := List.mem_map.1 h
  refine ⟨by simpa using hne, tight_trim w, ?_⟩
  intro hn
  have := not_of_mem_splitOnP hw '\n' ((trim_sublist w).subset hn)
  simp at this

theorem tight_tidy (body : Text) : Tight (tidy body) :=
  tight_intercalate _ fun _ h => ⟨(isLine_of_mem_bodyLines h).nonempty, (isLine_of_mem_bodyLines h).tight⟩

theorem bodyLines_append (a b : Text) : bodyLines (a ++ '\n' :: b) = bodyLines a ++ bodyLines b := by
  unfold bodyLines
  rw [List.splitOn_append_cons_self, List.map_append, List.filter_append]

/-- a blank in front of a line does not matter -/
theorem bodyLines_cons_blank {c : Char} (hb : isBlank c = true) (hc : c ≠ '\n') (t : Text) :
    bodyLines (c :: t) = bodyLines t := by
  obtain ⟨w, ws, hw⟩ := List.exists_cons_of_ne_nil (List.splitOn_ne_nil '\n' t)
  have ht : trim (c :: w) = trim w := trim_append (a := [c]) (blank_cons.2 ⟨hb, blank_nil⟩) w
  unfold bodyLines
  rw [List.splitOn_cons_eq_if_modifyHead, if_neg (by simpa using hc), hw, List.modifyHead_cons, List.map_cons,
    List.map_cons, ht]

theorem bodyLines_of_isLine {l : Text} (h : IsLine l) : bodyLines l = [l] := by
  unfold bodyLines
  rw [List.splitOn_eq_singleton h.whole]
  simp [trim_eq_self_iff.2 h.tight, h.nonempty]

theorem bodyLines_intercalate {ls : List Text} (h : ∀ l ∈ ls, IsLine l) : bodyLines (indent.intercalate ls) = ls := by
  induction ls with
  | nil => rfl
  | cons l ls ih =>
    have hl := bodyLines_of_isLine (h l List.mem_cons_self)
    cases ls with
    | nil => simpa using hl
    | cons l' ls =>
      have ih' := ih fun x hx => h x (List.mem_cons_of_mem _ hx)
      rw [List.intercalate_cons_cons, List.append_assoc]
      show bodyLines (l ++ '\n' :: ' ' :: ' ' :: ' ' :: ' ' :: indent.intercalate (l' :: ls)) = _
      rw [bodyLines_append, hl]
      iterate 4 rw [bodyLines_cons_blank (by decide) (by decide)]
      rw [ih']
      rfl

/-- **Rendering a rendered body changes nothing.** -/
theorem bodyLines_tidy (body : Text) : bodyLines (tidy body) = bodyLines body :=
  bodyLines_intercalate fun _ h => isLine_of_mem_bodyLines h

end StyleCheck.Rule
