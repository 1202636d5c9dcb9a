/-
Taking texts apart.

Selectors, keys and values are read by taking characters off the two ends of a text and by cutting it at a character.
Each lemma says which texts such a step accepts and what it leaves.
- `cut?_eq_some_iff`: a text is cut at the first place of a character;
- `unquote_eq_or`, `unquote_between`: unquoting takes off a pair of equal quotes or nothing; names are unquoted more
  loosely (`unquoteLoosely_between`).
-/
import StyleCheck.Proofs.Text.Blank

namespace StyleCheck.Text

theorem dropFirst?_eq_some_iff {c : Char} {t rest : Text} : dropFirst? c t = some rest ↔ t = c :: rest := by
  cases t with
  | nil => simp [dropFirst?]
  | cons d t =>
    show (if d = c then some t else none) = some rest ↔ d :: t = c :: rest
    by_cases h : d = c <;> simp [h]

theorem of_dropLast? {p : Char → Bool} {t rest : Text} (h : dropLast? p t = some rest) :
    ∃ c, p c = true ∧ t = rest ++ [c] := by
  unfold dropLast? at h
  split at h
  · rename_i c hc
    split at h
    · rename_i hp
      obtain ⟨rest', rfl⟩ := List.getLast?_eq_some_iff.1 hc
      refine ⟨c, hp, ?_⟩
      rw [← Option.some.inj h, List.dropLast_concat]
    · cases h
  · cases h

theorem dropLast?_concat {p : Char → Bool} (t : Text) {c : Char} (hc : p c = true) :
    dropLast? p (t ++ [c]) = some t := by
  simp [dropLast?, hc]

theorem cut?_eq_some_iff {c : Char} {t before after : Text} :
    cut? c t = some (before, after) ↔ t = before ++ c :: after ∧ c ∉ before := by
  constructor
  · intro h
    have hparts : t.takeWhile (· != c) ++ t.dropWhile (· != c) = t := List.takeWhile_append_dropWhile
    unfold cut? at h
    split at h
    · cases h
    · rename_i d rest hdrop
      have hd : d = c := by
        have hfirst := List.head?_dropWhile_not (· != c) t
        rw [hdrop] at hfirst
        simpa using hfirst
      cases h
      rw [hdrop, hd] at hparts
      refine ⟨hparts.symm, fun hm => ?_⟩
      simpa using List.mem_takeWhile_imp hm
  · rintro ⟨rfl, hc⟩
    have hpass : ∀ d ∈ before, (d != c) = true := fun d hd => by
      have hne : d ≠ c := fun he => hc (he ▸ hd)
      simpa using hne
    unfold cut?
    rw [List.dropWhile_append_of_pos hpass, List.takeWhile_append_of_pos hpass]
    simp

/-- the inside of a text with something around it -/
theorem inside?_of {p : Char → Bool} {a b : Char} (ha : p a = true) (hb : p b = true) (t : Text) :
    inside? p (a :: t ++ [b]) = some t := by
  show (if p a then dropLast? p (t ++ [b]) else none) = some t
  rw [if_pos ha, dropLast?_concat t hb]

theorem of_inside? {p : Char → Bool} {t rest : Text} (h : inside? p t = some rest) :
    ∃ a b, p a = true ∧ p b = true ∧ t = a :: rest ++ [b] := by
  cases t with
  | nil => cases h
  | cons a t =>
    have hif : (if p a then dropLast? p t else none) = some rest := h
    split at hif
    · rename_i ha
      obtain ⟨b, hb, rfl⟩ := of_dropLast? hif
      exact ⟨a, b, ha, hb, rfl⟩
    · cases hif

/-- the two quotes that are taken off a name need not be equal -/
theorem unquoteLoosely_between {a b : Char} (ha : isQuote a = true) (hb : isQuote b = true) (t : Text) :
    unquoteLoosely (a :: t ++ [b]) = t := by
  unfold unquoteLoosely
  rw [inside?_of ha hb]
  rfl

/-- unquoting takes off a pair of equal quotes, or nothing -/
theorem unquote_eq_or (t : Text) : unquote t = t ∨ ∃ q, isQuote q = true ∧ t = q :: unquote t ++ [q] := by
  have hinside {q : Char} {rest : Text} (h : inside? (· == q) t = some rest) : t = q :: rest ++ [q] := by
    obtain ⟨a, b, ha, hb, ht⟩ := of_inside? h
    rw [ht, eq_of_beq ha, eq_of_beq hb]
  unfold unquote
  cases hdouble : inside? (· == '"') t with
  | some rest => exact Or.inr ⟨'"', by decide, hinside hdouble⟩
  | none =>
    cases hsingle : inside? (· == '\'') t with
    | some rest => exact Or.inr ⟨'\'', by decide, hinside hsingle⟩
    | none => exact Or.inl rfl

/-- unquoting takes off a pair of equal quotes, whatever stands between them -/
theorem unquote_between {q : Char} (hq : isQuote q = true) (t : Text) : unquote (q :: t ++ [q]) = t := by
  have hself (c : Char) : inside? (· == c) (c :: t ++ [c]) = some t :=
    inside?_of (p := (· == c)) (beq_self_eq_true c) (beq_self_eq_true c) t
  unfold unquote
  rcases (by simpa [isQuote] using hq : q = '"' ∨ q = '\'') with rfl | rfl
  · rw [hself]
    rfl
  · have hdouble : inside? (· == '"') ('\'' :: t ++ ['\'']) = none := rfl
    rw [hdouble, hself]
    rfl

/-- a character of a text is one of the unquoted text, or a quote -/
theorem mem_unquote {t : Text} {c : Char} (h : c ∈ t) : c ∈ unquote t ∨ isQuote c = true := by
  rcases unquote_eq_or t with he | ⟨q, hq, he⟩
  · exact Or.inl (by rwa [he])
  · rw [he] at h
    simp only [List.cons_append, List.mem_cons, List.mem_append, List.not_mem_nil, or_false] at h
    rcases h with rfl | h | rfl
    · exact Or.inr hq
    · exact Or.inl h
    · exact Or.inr hq

end StyleCheck.Text
