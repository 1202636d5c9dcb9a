/-
Blanks at the ends of a text and between its words.

- `takeWhile_append_trim`: a text is what trimming leaves, with blanks around it; `trim_append` and `append_trim` say
  that such blanks never matter, and `trim_eq_self_iff` which texts trimming leaves alone;
- `words_append_blank`: words split at every blank, from which `words_intercalate` follows: joining words and reading
  them again gives them back, so the normal form of a prelude is its own normal form (`normalize_normalize`).
-/
import Mathlib.Data.List.DropRight
import StyleCheck.Selector.Basic

namespace StyleCheck.Text

def Blank (t : Text) : Prop := ∀ c ∈ t, isBlank c = true

def AsciiBlank (t : Text) : Prop := ∀ c ∈ t, isAsciiBlank c = true

instance (t : Text) : Decidable (Blank t) := List.decidableBAll _ t

instance (t : Text) : Decidable (AsciiBlank t) := List.decidableBAll _ t

theorem isAsciiBlank_iff {c : Char} :
    isAsciiBlank c = true ↔ c = ' ' ∨ c = '\t' ∨ c = '\n' ∨ c = '\x0c' ∨ c = '\r' := by
  simp [isAsciiBlank, or_assoc]

theorem blank_of_asciiBlank {c : Char} (h : isAsciiBlank c = true) : isBlank c = true := by
  rcases isAsciiBlank_iff.1 h with rfl | rfl | rfl | rfl | rfl <;> decide

theorem AsciiBlank.blank {t : Text} (h : AsciiBlank t) : Blank t := fun c hc => blank_of_asciiBlank (h c hc)

theorem blank_nil : Blank [] := by simp [Blank]

theorem blank_cons {c : Char} {t : Text} : Blank (c :: t) ↔ isBlank c = true ∧ Blank t := by simp [Blank]

theorem blank_append {a b : Text} : Blank (a ++ b) ↔ Blank a ∧ Blank b := List.forall_mem_append

/-- neither the first nor the last character is a blank -/
structure Tight (t : Text) : Prop where
  first : ∀ c, t.head? = some c → isBlank c = false
  last : ∀ c, t.getLast? = some c → isBlank c = false

/-! ## Trimming -/

theorem trimStart_append {a : Text} (h : Blank a) (b : Text) : trimStart (a ++ b) = trimStart b :=
  List.dropWhile_append_of_pos h

theorem trimEnd_append (a : Text) {b : Text} (h : Blank b) : trimEnd (a ++ b) = trimEnd a := by
  unfold trimEnd
  rw [List.reverse_append, List.dropWhile_append_of_pos fun c hc => h c (List.mem_reverse.1 hc)]

theorem trimStart_eq_nil_iff {t : Text} : trimStart t = [] ↔ Blank t := List.dropWhile_eq_nil_iff

/-- blanks in front do not matter -/
theorem trim_append {a : Text} (h : Blank a) (b : Text) : trim (a ++ b) = trim b := by
  unfold trim
  rw [trimStart_append h]

theorem append_trim (a : Text) {b : Text} (h : Blank b) : trim (a ++ b) = trim a := by
  unfold trim
  by_cases ha : trimStart a = []
  · rw [trimStart_append (trimStart_eq_nil_iff.1 ha), trimStart_eq_nil_iff.2 h, ha]
  · have hs : trimStart (a ++ b) = trimStart a ++ b := by
      unfold trimStart at ha ⊢
      rw [List.dropWhile_append, if_neg (by simpa using ha)]
    rw [hs, trimEnd_append _ h]

/-- a text is what trimming leaves, with its first blanks in front and blanks behind it -/
theorem takeWhile_append_trim (t : Text) : ∃ tail, t = t.takeWhile isBlank ++ trim t ++ tail ∧ Blank tail := by
  have hs : t = t.takeWhile isBlank ++ trimStart t := List.takeWhile_append_dropWhile.symm
  have he : trimStart t = trim t ++ (trimStart t).rtakeWhile isBlank := List.rdropWhile_append_rtakeWhile.symm
  refine ⟨(trimStart t).rtakeWhile isBlank, ?_, fun c hc => List.mem_rtakeWhile_imp hc⟩
  rw [List.append_assoc, ← he, ← hs]

theorem blank_takeWhile (t : Text) : Blank (t.takeWhile isBlank) := fun _ hc => List.mem_takeWhile_imp hc

theorem trim_decompose (t : Text) : ∃ lead tail, t = lead ++ trim t ++ tail ∧ Blank lead ∧ Blank tail := by
  obtain ⟨tail, ht, hb⟩ := takeWhile_append_trim t
  exact ⟨t.takeWhile isBlank, tail, ht, blank_takeWhile t, hb⟩

theorem trim_eq_nil_iff {t : Text} : trim t = [] ↔ Blank t := by
  constructor
  · intro h
    obtain ⟨lead, tail, ht, hlead, htail⟩ := trim_decompose t
    rw [ht, h, List.append_nil]
    exact blank_append.2 ⟨hlead, htail⟩
  · intro h
    rw [← List.append_nil t, trim_append h]
    rfl

@[simp] theorem trim_trim (t : Text) : trim (trim t) = trim t := by
  obtain ⟨lead, tail, ht, hl, he⟩ := trim_decompose t
  have h : trim t = trim (lead ++ trim t ++ tail) := congrArg trim ht
  rw [append_trim _ he, trim_append hl] at h
  exact h.symm

theorem trimStart_eq_self_iff {t : Text} : trimStart t = t ↔ ∀ c, t.head? = some c → isBlank c = false := by
  cases t with
  | nil => simp [trimStart]
  | cons c t => simp [trimStart, List.dropWhile_eq_self_iff]

theorem trimEnd_eq_self_iff {t : Text} : trimEnd t = t ↔ ∀ c, t.getLast? = some c → isBlank c = false := by
  have h : trimEnd t = t ↔ ∀ hl : t ≠ [], ¬isBlank (t.getLast hl) := List.rdropWhile_eq_self_iff
  rw [h]
  constructor
  · intro h c hc
    have ht : t ≠ [] := fun he => by simp [he] at hc
    rw [List.getLast?_eq_some_getLast ht] at hc
    rw [← Option.some.inj hc]
    simpa using h ht
  · intro h ht
    simpa using h _ (List.getLast?_eq_some_getLast ht)

theorem trim_eq_self_iff {t : Text} : trim t = t ↔ Tight t := by
  constructor
  · intro h
    have hs : trimStart t = t := by
      refine (List.dropWhile_sublist _).eq_of_length_le ?_
      have he : (trim t).length ≤ (trimStart t).length := (List.rdropWhile_prefix isBlank (trimStart t)).length_le
      rwa [h] at he
    have he : trimEnd t = t := by rwa [trim, hs] at h
    exact ⟨trimStart_eq_self_iff.1 hs, trimEnd_eq_self_iff.1 he⟩
  · intro h
    rw [trim, trimStart_eq_self_iff.2 h.first, trimEnd_eq_self_iff.2 h.last]

theorem tight_trim (t : Text) : Tight (trim t) := trim_eq_self_iff.1 (trim_trim t)

theorem tight_append {a b : Text} (ha : a ≠ []) (hb : b ≠ []) (h : Tight a) (h' : Tight b) (m : Text) :
    Tight (a ++ m ++ b) := by
  constructor
  · intro c hc
    rw [List.append_assoc, List.head?_append_of_ne_nil _ ha] at hc
    exact h.first c hc
  · intro c hc
    rw [List.getLast?_append_of_ne_nil _ hb] at hc
    exact h'.last c hc

theorem tight_intercalate (sep : Text) {parts : List Text} (h : ∀ l ∈ parts, l ≠ [] ∧ Tight l) :
    Tight (sep.intercalate parts) := by
  induction parts with
  | nil => exact ⟨by simp, by simp⟩
  | cons l ls ih =>
    obtain ⟨hl, ht⟩ := h l List.mem_cons_self
    cases ls with
    | nil => simpa using ht
    | cons l' ls =>
      have hne : sep.intercalate (l' :: ls) ≠ [] := by
        obtain ⟨hl', -⟩ := h l' (by simp)
        cases ls <;> simp [hl']
      rw [List.intercalate_cons_cons]
      exact tight_append hl hne ht (ih fun x hx => h x (List.mem_cons_of_mem _ hx)) sep

/-! ## Words -/

/-- a word: blank-free and not empty -/
structure IsWord (w : Text) : Prop where
  nonempty : w ≠ []
  solid : ∀ c ∈ w, isBlank c = false

/-- the parts of a split text hold nothing that was split at -/
theorem not_of_mem_splitOnP {p : Char → Bool} {t w : Text} (h : w ∈ t.splitOnP p) : ∀ c ∈ w, p c = false := by
  induction t generalizing w with
  | nil => simp_all
  | cons x t ih =>
    rw [List.splitOnP_cons_eq_if_modifyHead] at h
    split at h
    · rcases List.mem_cons.1 h with rfl | h
      · simp
      · exact ih h
    · rename_i hx
      obtain ⟨v, vs, hv⟩ := List.exists_cons_of_ne_nil (List.splitOnP_ne_nil p t)
      rw [hv, List.modifyHead_cons] at h
      rcases List.mem_cons.1 h with rfl | h
      · intro c hc
        rcases List.mem_cons.1 hc with rfl | hc
        · simpa using hx
        · exact ih (hv ▸ List.mem_cons_self) c hc
      · exact ih (hv ▸ List.mem_cons_of_mem _ h)

theorem isWord_of_mem_words {t w : Text} (h : w ∈ words t) : IsWord w := by
  obtain ⟨h, hne⟩ := List.mem_filter.1 h
  exact ⟨by simpa using hne, not_of_mem_splitOnP h⟩

theorem words_append_blank (a : Text) {c : Char} (hc : isBlank c = true) (b : Text) :
    words (a ++ c :: b) = words a ++ words b := by
  unfold words
  rw [List.splitOnP_append_cons a b hc, List.filter_append]

theorem words_cons_blank {c : Char} (hc : isBlank c = true) (t : Text) : words (c :: t) = words t := by
  simpa [words] using words_append_blank [] hc t

/-- blanks in front are no words -/
theorem words_blank_append {g : Text} (hg : Blank g) (t : Text) : words (g ++ t) = words t := by
  induction g with
  | nil => rfl
  | cons c g ih =>
    obtain ⟨hc, hg⟩ := blank_cons.1 hg
    rw [List.cons_append, words_cons_blank hc, ih hg]

theorem words_of_isWord {w : Text} (h : IsWord w) : words w = [w] := by
  unfold words
  rw [List.splitOnP_eq_singleton h.solid]
  simp [h.nonempty]

/-- joining words and reading them again gives them back -/
theorem words_intercalate {ws : List Text} (h : ∀ w ∈ ws, IsWord w) : words ([' '].intercalate ws) = ws := by
  induction ws with
  | nil => rfl
  | cons w ws ih =>
    have hw := words_of_isWord (h w List.mem_cons_self)
    cases ws with
    | nil => simpa using hw
    | cons w' ws =>
      rw [List.intercalate_cons_cons, List.append_assoc, List.singleton_append,
        words_append_blank w (by decide), hw, ih fun x hx => h x (List.mem_cons_of_mem _ hx)]
      rfl

end StyleCheck.Text

namespace StyleCheck.Selector

open Text

theorem words_normalize (t : Text) : words (normalize t) = words t :=
  words_intercalate fun _ h => isWord_of_mem_words h

theorem normalize_normalize (t : Text) : normalize (normalize t) = normalize t := by
  unfold normalize
  exact congrArg _ (words_normalize t)

theorem normalize_cons_blank {c : Char} (hc : isBlank c = true) (t : Text) : normalize (c :: t) = normalize t := by
  unfold normalize
  rw [words_cons_blank hc]

/-- blanks in front of a prelude do not matter -/
theorem normalize_append {a : Text} (h : Blank a) (b : Text) : normalize (a ++ b) = normalize b := by
  induction a with
  | nil => rfl
  | cons c a ih =>
    obtain ⟨hc, ha⟩ := blank_cons.1 h
    rw [List.cons_append, normalize_cons_blank hc, ih ha]

theorem normalize_concat_blank (t : Text) {c : Char} (hc : isBlank c = true) : normalize (t ++ [c]) = normalize t := by
  unfold normalize
  rw [words_append_blank t hc]
  simp [words]

end StyleCheck.Selector
