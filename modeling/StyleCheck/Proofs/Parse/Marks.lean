/-
The marks of a text: what its characters do to its structure.

Of a comment-free text only four kinds of characters matter to blocks: braces and semicolons in code, and line feeds
that cut a literal. `Quoting.marks` lists them, so that whether a text is balanced (`Mark.depth?`), free of braces or
free of cut literals is a question about a list. Comment openers need two characters and have a predicate of their own,
`Quoting.Uncommented`; so have line feeds that a backslash hides in a literal, `Quoting.Uncontinued`, which matter to
nothing but lines.
- `marks_append`: the marks of two texts are those of the first and, from where it ends, those of the second;
- `run_blank`: blanks end an escape and do nothing else, unless they cut a literal;
- `respaced_marks`, `retouched_marks`: exchanging and dropping blanks keeps the marks and where the text ends;
- `respaced_uncommented`, `retouched_uncommented`: it opens no comment either;
- `read_between`: nor does putting blanks around a text.
-/
import StyleCheck.Parse.Quoting
import StyleCheck.Proofs.Text.Respacing

namespace StyleCheck

/-- what a character does to the structure of a text -/
inductive Mark where
  /-- a brace that opens -/
  | opens
  /-- a brace that closes -/
  | closes
  /-- a semicolon -/
  | ends
  /-- a line feed inside a literal -/
  | cut
  deriving DecidableEq, Repr

namespace Mark

def ofChar? (q : Quoting) (c : Char) : Option Mark :=
  if q.isCode ∧ c = '{' then some .opens
  else if q.isCode ∧ c = '}' then some .closes
  else if q.isCode ∧ c = ';' then some .ends
  else if q.isCutBy c then some .cut
  else none

/-- the depth that marks lead to; there is none if a brace closes what was not opened -/
def depth? : Nat → List Mark → Option Nat
  | d, [] => some d
  | d, .opens :: ms => depth? (d + 1) ms
  | 0, .closes :: _ => none
  | d + 1, .closes :: ms => depth? d ms
  | d, .ends :: ms => depth? d ms
  | d, .cut :: ms => depth? d ms

theorem depth?_append (d : Nat) (a b : List Mark) : depth? d (a ++ b) = (depth? d a).bind fun e => depth? e b := by
  induction a generalizing d with
  | nil => rfl
  | cons m a ih =>
    cases m with
    | closes =>
      cases d with
      | zero => rfl
      | succ d => exact ih d
    | _ => exact ih _

end Mark

namespace Quoting

open Text

def marks (q : Quoting) : Text → List Mark
  | [] => []
  | c :: t => (Mark.ofChar? q c).toList ++ marks (q.next c) t

/-- no comment opens in code -/
def Uncommented (q : Quoting) : Text → Prop
  | [] => True
  | c :: t => ¬(q.isCode = true ∧ c = '/' ∧ t.head? = some '*') ∧ Uncommented (q.next c) t

instance decidableUncommented : (q : Quoting) → (t : Text) → Decidable (q.Uncommented t)
  | _, [] => isTrue trivial
  | q, c :: t =>
    have := decidableUncommented (q.next c) t
    inferInstanceAs (Decidable (¬(q.isCode = true ∧ c = '/' ∧ t.head? = some '*') ∧ Uncommented (q.next c) t))

/-- no literal goes on behind a line feed -/
def Uncontinued (q : Quoting) : Text → Prop
  | [] => True
  | c :: t => ¬(q.quote.isSome = true ∧ q.escaped = true ∧ c = '\n') ∧ Uncontinued (q.next c) t

instance decidableUncontinued : (q : Quoting) → (t : Text) → Decidable (q.Uncontinued t)
  | _, [] => isTrue trivial
  | q, c :: t =>
    have := decidableUncontinued (q.next c) t
    inferInstanceAs (Decidable (¬(q.quote.isSome = true ∧ q.escaped = true ∧ c = '\n') ∧ Uncontinued (q.next c) t))

/-- only quotes delimit literals -/
def Proper (q : Quoting) : Prop := ∀ k, q.quote = some k → isQuote k = true

@[simp] theorem marks_nil (q : Quoting) : q.marks [] = [] := rfl

theorem marks_cons (q : Quoting) (c : Char) (t : Text) :
    q.marks (c :: t) = (Mark.ofChar? q c).toList ++ (q.next c).marks t := rfl

theorem marks_append (q : Quoting) (a b : Text) : q.marks (a ++ b) = q.marks a ++ (q.run a).marks b := by
  induction a generalizing q with
  | nil => rfl
  | cons c a ih => rw [List.cons_append, marks_cons, marks_cons, ih, List.append_assoc, run_cons]

theorem run_concat (q : Quoting) (u : Text) (c : Char) : q.run (u ++ [c]) = (q.run u).next c := run_append q u [c]

theorem marks_concat (q : Quoting) (u : Text) (c : Char) :
    q.marks (u ++ [c]) = q.marks u ++ (Mark.ofChar? (q.run u) c).toList := by
  rw [marks_append, marks_cons, marks_nil, List.append_nil]

/-- only a backslash hides something -/
theorem next_of_not_escaped {q : Quoting} (hq : q.escaped = false) {c : Char} (hc : c ≠ '\\') :
    (q.next c).escaped = false := by
  obtain ⟨quote, e⟩ := q
  obtain rfl : e = false := hq
  simp only [next, Bool.false_eq_true, if_false, if_neg hc]
  cases quote <;> simp only <;> split <;> rfl

theorem proper_code : code.Proper := by simp [Proper, code]

theorem Proper.next {q : Quoting} (h : q.Proper) (c : Char) : (q.next c).Proper := by
  obtain ⟨k, e⟩ := q
  unfold Quoting.next
  split
  · exact h
  split
  · exact h
  split
  · split
    · rename_i hc
      rintro k ⟨⟩
      exact hc
    · exact h
  · split
    · exact proper_code
    · exact h

theorem Proper.run {q : Quoting} (h : q.Proper) (t : Text) : (q.run t).Proper := by
  induction t generalizing q with
  | nil => exact h
  | cons c t ih => exact ih (h.next c)

/-! ## Blanks -/

theorem ne_of_blank {c d : Char} (hc : isBlank c = true) (hd : isBlank d = false) : c ≠ d := by
  rintro rfl
  rw [hc] at hd
  cases hd

theorem not_quote_of_blank {c : Char} (hc : isBlank c = true) : isQuote c = false := by
  have h1 := ne_of_blank hc (d := '"') (by decide)
  have h2 := ne_of_blank hc (d := '\'') (by decide)
  simp [isQuote, h1, h2]

/-- a blank makes no mark, unless it cuts a literal -/
theorem ofChar?_blank (q : Quoting) {c : Char} (hc : isBlank c = true) :
    Mark.ofChar? q c = if q.isCutBy c then some .cut else none := by
  have h1 := ne_of_blank hc (d := '{') (by decide)
  have h2 := ne_of_blank hc (d := '}') (by decide)
  have h3 := ne_of_blank hc (d := ';') (by decide)
  simp [Mark.ofChar?, h1, h2, h3]

/-- a blank ends an escape and does nothing else, unless it cuts a literal -/
theorem next_blank {q : Quoting} (hq : q.Proper) {c : Char} (hc : isBlank c = true) (hcut : q.isCutBy c = false) :
    q.next c = ⟨q.quote, false⟩ := by
  obtain ⟨k, e⟩ := q
  have hs := ne_of_blank hc (d := '\\') (by decide)
  have hn := not_quote_of_blank hc
  cases e with
  | true => simp [next]
  | false =>
    cases k with
    | none => simp [next, hs, hn]
    | some k =>
      have hk : c ≠ k := fun h => by
        rw [h, hq k rfl] at hn
        cases hn
      have hl : c ≠ '\n' := by simpa [isCutBy] using hcut
      simp [next, hs, hk, hl]

/-- **Blanks end an escape and do nothing else, unless they cut a literal.** -/
theorem run_blank {q : Quoting} (hq : q.Proper) {g : Text} (hg : Blank g) (hne : g ≠ [])
    (hcut : .cut ∉ q.marks g) : q.run g = ⟨q.quote, false⟩ ∧ q.marks g = [] := by
  induction g generalizing q with
  | nil => exact absurd rfl hne
  | cons c g ih =>
    obtain ⟨hc, hg⟩ := blank_cons.1 hg
    rw [marks_cons, ofChar?_blank q hc] at hcut ⊢
    have hcb : q.isCutBy c = false := by
      by_contra h
      simp [h] at hcut
    rw [hcb] at hcut ⊢
    have hn := next_blank hq hc hcb
    rw [run_cons, hn]
    rw [hn] at hcut
    cases g with
    | nil => exact ⟨rfl, rfl⟩
    | cons d g => exact ih (hn ▸ hq.next c) hg (by simp) (by simpa using hcut)

theorem marks_of_blank {q : Quoting} (hq : q.Proper) {g : Text} (hg : Blank g) (hcut : .cut ∉ q.marks g) :
    q.marks g = [] ∧ (q.run g).quote = q.quote := by
  by_cases hne : g = []
  · rw [hne]
    exact ⟨rfl, rfl⟩
  · obtain ⟨hr, hm⟩ := run_blank hq hg hne hcut
    exact ⟨hm, by rw [hr]⟩

theorem uncut_of_not_mem {q : Quoting} {t : Text} (h : '\n' ∉ t) : .cut ∉ q.marks t := by
  induction t generalizing q with
  | nil => simp
  | cons c t ih =>
    have hc : c ≠ '\n' := fun he => h (he ▸ List.mem_cons_self)
    rw [marks_cons, List.mem_append, not_or]
    refine ⟨?_, ih fun hm => h (List.mem_cons_of_mem _ hm)⟩
    have hcut : q.isCutBy c = false := by simp [isCutBy, hc]
    unfold Mark.ofChar?
    rw [if_neg (c := q.isCutBy c = true) (by rw [hcut]; decide)]
    split_ifs <;> simp

theorem uncut_of_code {q : Quoting} (hq : q.quote = none) {g : Text} (hg : Blank g) : .cut ∉ q.marks g := by
  have hp : q.Proper := by simp [Proper, hq]
  induction g generalizing q with
  | nil => simp
  | cons c g ih =>
    obtain ⟨hc, hg⟩ := blank_cons.1 hg
    have hcut : q.isCutBy c = false := by simp [isCutBy, hq]
    have hn := next_blank hp hc hcut
    rw [marks_cons, ofChar?_blank q hc, hcut, hn]
    exact ih hq hg (hn ▸ hp.next c)

/-- a line feed in a literal cuts it, unless it is hidden -/
theorem not_mem_of_uncut {q : Quoting} (hq : q.Proper) (hs : q.quote ≠ none) (he : q.escaped = false) {g : Text}
    (hg : Blank g) (hcut : .cut ∉ q.marks g) : '\n' ∉ g := by
  induction g with
  | nil => simp
  | cons c g ih =>
    obtain ⟨hc, hg⟩ := blank_cons.1 hg
    rw [marks_cons, ofChar?_blank q hc] at hcut
    have hcb : q.isCutBy c = false := by
      by_contra h
      simp [h] at hcut
    have hn : q.next c = q := by rw [next_blank hq hc hcb, ← he]
    have hl : c ≠ '\n' := by simpa [isCutBy, he, Option.isSome_iff_ne_none, hs] using hcb
    rw [hcb, hn] at hcut
    exact List.not_mem_cons_of_ne_of_not_mem hl.symm (ih hg hcut)

/-! ## Exchanged blanks -/

/-- blanks that do not cut a literal are exchanged for blanks that do not -/
theorem uncut_gap {q : Quoting} (hq : q.Proper) {g g' : Text} (h : Gap g g') (hcut : .cut ∉ q.marks g) :
    .cut ∉ q.marks g' := by
  by_cases hs : q.quote = none
  · exact uncut_of_code hs h.new_blank
  cases he : q.escaped with
  | false => exact uncut_of_not_mem fun hn => not_mem_of_uncut hq hs he h.old_blank hcut (h.newline hn)
  | true =>
    -- the first blank is hidden, and no other one is a line feed
    obtain ⟨c, t, rfl⟩ := List.exists_cons_of_ne_nil h.new_nonempty
    have hc : q.isCutBy c = false := by simp [isCutBy, he]
    rw [marks_cons, ofChar?_blank q (blank_cons.1 h.new_blank).1, hc]
    exact uncut_of_not_mem h.newline_first

/-- **Exchanging blanks keeps the marks and where the text ends.** -/
theorem respaced_marks {a b : Text} (h : Respaced a b) {q : Quoting} (hq : q.Proper) (hcut : .cut ∉ q.marks a) :
    q.run b = q.run a ∧ q.marks b = q.marks a := by
  induction h generalizing q with
  | nil => exact ⟨rfl, rfl⟩
  | keep c _ ih =>
    rw [marks_cons, List.mem_append, not_or] at hcut
    obtain ⟨hr, hm⟩ := ih (hq.next c) hcut.2
    rw [run_cons, run_cons, marks_cons, marks_cons, hm]
    exact ⟨hr, rfl⟩
  | gap hg _ ih =>
    rw [marks_append, List.mem_append, not_or] at hcut
    obtain ⟨hr, hm⟩ := run_blank hq hg.old_blank hg.old_nonempty hcut.1
    obtain ⟨hr', hm'⟩ := run_blank hq hg.new_blank hg.new_nonempty (uncut_gap hq hg hcut.1)
    obtain ⟨ihr, ihm⟩ := ih (hq.run _) hcut.2
    rw [run_append, run_append, marks_append, marks_append, hm, hm', hr'.trans hr.symm]
    exact ⟨ihr, by rw [ihm]⟩

/-- blanks outside literals lead to code -/
theorem run_blank_of_closed {q : Quoting} (hq : q.quote = none) {g : Text} (hg : Blank g) (hne : g ≠ []) :
    q.run g = code ∧ q.marks g = [] := by
  obtain ⟨hr, hm⟩ := run_blank (by simp [Proper, hq]) hg hne (uncut_of_code hq hg)
  rw [hr, hq]
  exact ⟨rfl, hm⟩

theorem run_code_blank {g : Text} (hg : Blank g) : code.run g = code ∧ code.marks g = [] := by
  by_cases hne : g = []
  · rw [hne]
    exact ⟨rfl, rfl⟩
  · exact run_blank_of_closed rfl hg hne

/-- **Exchanging blanks and dropping them at the ends keeps the marks and the literal the text ends in.** -/
theorem retouched_marks {a b : Text} (h : Retouched a b) (hcut : .cut ∉ code.marks a) :
    code.marks b = code.marks a ∧ (code.run b).quote = (code.run a).quote := by
  obtain ⟨lead, core, tail, rfl, hl, ht, hr⟩ := h
  obtain ⟨hlr, hlm⟩ := run_code_blank hl
  rw [List.append_assoc, marks_append, hlr, hlm, List.nil_append, marks_append, List.mem_append, not_or] at hcut
  obtain ⟨hrr, hrm⟩ := respaced_marks hr proper_code hcut.1
  obtain ⟨htm, htq⟩ := marks_of_blank (proper_code.run core) ht hcut.2
  rw [List.append_assoc, marks_append, run_append, hlr, hlm, List.nil_append, marks_append, run_append, htm,
    List.append_nil, htq, hrr, hrm]
  exact ⟨rfl, rfl⟩

/-! ## Comment openers -/

theorem uncommented_cons {q : Quoting} {c : Char} {t : Text} :
    q.Uncommented (c :: t) ↔
      ¬(q.isCode = true ∧ c = '/' ∧ t.head? = some '*') ∧ (q.next c).Uncommented t := Iff.rfl

theorem Uncommented.of_append {q : Quoting} {a b : Text} (h : q.Uncommented (a ++ b)) :
    q.Uncommented a ∧ (q.run a).Uncommented b := by
  induction a generalizing q with
  | nil => exact ⟨trivial, h⟩
  | cons c a ih =>
    rw [List.cons_append] at h
    obtain ⟨hc, ha⟩ := uncommented_cons.1 h
    obtain ⟨ha, hb⟩ := ih ha
    refine ⟨uncommented_cons.2 ⟨fun ⟨h1, h2, h3⟩ => hc ⟨h1, h2, ?_⟩, ha⟩, hb⟩
    rw [List.head?_append, h3]
    rfl

theorem Uncommented.append {q : Quoting} {a b : Text} (ha : q.Uncommented a) (hb : (q.run a).Uncommented b)
    (hj : a.getLast? = some '/' → b.head? ≠ some '*') : q.Uncommented (a ++ b) := by
  induction a generalizing q with
  | nil => exact hb
  | cons c a ih =>
    obtain ⟨hc, ha⟩ := uncommented_cons.1 ha
    rw [List.cons_append]
    cases a with
    | nil => exact uncommented_cons.2 ⟨fun ⟨_, h2, h3⟩ => hj (by rw [h2]; rfl) h3, hb⟩
    | cons d a =>
      rw [List.getLast?_cons_cons] at hj
      exact uncommented_cons.2 ⟨hc, ih ha hb hj⟩

theorem uncommented_append_blank {q : Quoting} {g : Text} (hg : Blank g) (b : Text) :
    q.Uncommented (g ++ b) ↔ (q.run g).Uncommented b := by
  induction g generalizing q with
  | nil => rfl
  | cons c g ih =>
    obtain ⟨hc, hg⟩ := blank_cons.1 hg
    have hs := ne_of_blank hc (d := '/') (by decide)
    rw [List.cons_append, uncommented_cons, ih hg]
    exact ⟨fun h => h.2, fun h => ⟨fun h' => hs h'.2.1, h⟩⟩

theorem head?_of_respaced {a b : Text} (h : Respaced a b) {c : Char} (hc : isBlank c = false)
    (hb : b.head? = some c) : a.head? = some c := by
  cases h with
  | nil => exact hb
  | keep d _ => exact hb
  | gap hg _ =>
    rw [List.head?_append_of_ne_nil _ hg.new_nonempty] at hb
    rw [hg.new_blank c (List.mem_of_head? hb)] at hc
    cases hc

theorem respaced_uncommented {a b : Text} (h : Respaced a b) {q : Quoting} (hq : q.Proper)
    (hcut : .cut ∉ q.marks a) (hu : q.Uncommented a) : q.Uncommented b := by
  induction h generalizing q with
  | nil => exact hu
  | keep c hr ih =>
    rw [marks_cons, List.mem_append, not_or] at hcut
    obtain ⟨hc, hu⟩ := uncommented_cons.1 hu
    exact uncommented_cons.2 ⟨fun ⟨h1, h2, h3⟩ => hc ⟨h1, h2, head?_of_respaced hr (by decide) h3⟩,
      ih (hq.next c) hcut.2 hu⟩
  | gap hg _ ih =>
    rw [marks_append, List.mem_append, not_or] at hcut
    obtain ⟨hr, -⟩ := run_blank hq hg.old_blank hg.old_nonempty hcut.1
    obtain ⟨hr', -⟩ := run_blank hq hg.new_blank hg.new_nonempty (uncut_gap hq hg hcut.1)
    rw [uncommented_append_blank hg.new_blank, hr'.trans hr.symm]
    exact ih (hq.run _) hcut.2 ((uncommented_append_blank hg.old_blank _).1 hu)

/-- **Exchanging blanks and dropping them at the ends opens no comment.** -/
theorem retouched_uncommented {a b : Text} (h : Retouched a b) (hcut : .cut ∉ code.marks a)
    (hu : code.Uncommented a) : code.Uncommented b := by
  obtain ⟨lead, core, tail, rfl, hl, -, hr⟩ := h
  rw [List.append_assoc, marks_append, (run_code_blank hl).1, List.mem_append, not_or, marks_append, List.mem_append,
    not_or] at hcut
  rw [List.append_assoc, uncommented_append_blank hl, (run_code_blank hl).1] at hu
  exact respaced_uncommented hr proper_code hcut.2.1 hu.of_append.1

/-- trimming opens no comment -/
theorem uncommented_trim {t : Text} (h : code.Uncommented t) : code.Uncommented (trim t) := by
  obtain ⟨lead, tail, ht, hl, -⟩ := trim_decompose t
  rw [ht, List.append_assoc, uncommented_append_blank hl, (run_code_blank hl).1] at h
  exact h.of_append.1

/-- **Blanks put around a text** keep its marks and open no comment, and those behind it lead back to code. -/
theorem read_between {t : Text} (hq : (code.run t).quote = none) (hu : code.Uncommented t) {lead tail : Text}
    (hl : Blank lead) (ht : Blank tail) (hne : tail ≠ []) :
    code.run (lead ++ t ++ tail) = code ∧ code.marks (lead ++ t ++ tail) = code.marks t ∧
      code.Uncommented (lead ++ t ++ tail) := by
  obtain ⟨hlr, hlm⟩ := run_code_blank hl
  obtain ⟨htr, htm⟩ := run_blank_of_closed hq ht hne
  refine ⟨?_, ?_, ?_⟩
  · rw [List.append_assoc, run_append, hlr, run_append, htr]
  · rw [List.append_assoc, marks_append, hlr, hlm, marks_append, htm, List.nil_append, List.append_nil]
  · have htu : (code.run t).Uncommented tail := by
      rw [← List.append_nil tail]
      exact (uncommented_append_blank ht []).2 trivial
    rw [List.append_assoc, uncommented_append_blank hl, hlr]
    refine hu.append htu ?_
    intro _ hs
    exact absurd (ht _ (List.mem_of_head? hs)) (by decide)

/-! ## Continued literals -/

theorem uncontinued_append {q : Quoting} {a b : Text} :
    q.Uncontinued (a ++ b) ↔ q.Uncontinued a ∧ (q.run a).Uncontinued b := by
  induction a generalizing q with
  | nil => simp [Uncontinued]
  | cons c a ih => rw [List.cons_append, Uncontinued, Uncontinued, ih, run_cons, and_assoc]

end Quoting

end StyleCheck
