/-
Classes of characters.

A character of one class is not a character outside it (`ne_of_class`), which settles most questions about single
characters. The class of name characters is also said by code points (`isNameChar_iff`), to compare it with other
classes.
-/
import StyleCheck.Proofs.Text.Blank

namespace StyleCheck.Text

theorem ne_of_class {p : Char → Bool} {c d : Char} (hc : p c = true) (hd : p d = false) : c ≠ d := by
  rintro rfl
  rw [hc] at hd
  cases hd

theorem isUpper_iff {c : Char} : c.isUpper = true ↔ 65 ≤ c.toNat ∧ c.toNat ≤ 90 := decide_eq_true_iff

theorem isLower_iff {c : Char} : c.isLower = true ↔ 97 ≤ c.toNat ∧ c.toNat ≤ 122 := by
  change (decide ('a'.val ≤ c.val) && decide (c.val ≤ 'z'.val)) = true ↔ _
  rw [Bool.and_eq_true, decide_eq_true_iff, decide_eq_true_iff]
  exact Iff.rfl

theorem isDigit_iff {c : Char} : c.isDigit = true ↔ 48 ≤ c.toNat ∧ c.toNat ≤ 57 := by
  change (decide ('0'.val ≤ c.val) && decide (c.val ≤ '9'.val)) = true ↔ _
  rw [Bool.and_eq_true, decide_eq_true_iff, decide_eq_true_iff]
  exact Iff.rfl

theorem isNameChar_iff {c : Char} : isNameChar c = true ↔
    (65 ≤ c.toNat ∧ c.toNat ≤ 90) ∨ (97 ≤ c.toNat ∧ c.toNat ≤ 122) ∨ (48 ≤ c.toNat ∧ c.toNat ≤ 57) ∨
      c.toNat = 45 ∨ c.toNat = 95 := by
  have hdash : c = '-' ↔ c.toNat = 45 := Char.toNat_inj.symm
  have hline : c = '_' ↔ c.toNat = 95 := Char.toNat_inj.symm
  change ((((c.isUpper || c.isLower) || c.isDigit) || c == '-') || c == '_') = true ↔ _
  simp only [Bool.or_eq_true, isUpper_iff, isLower_iff, isDigit_iff, beq_iff_eq, hdash, hline, or_assoc]

theorem not_blank_of_nameChar {c : Char} (h : isNameChar c = true) : isBlank c = false := by
  rw [isNameChar_iff] at h
  simp only [isBlank, Bool.or_eq_false_iff, Bool.and_eq_false_iff, decide_eq_false_iff_not, beq_eq_false_iff_ne]
  omega

theorem isName_iff {t : Text} : isName t = true ↔ t ≠ [] ∧ ∀ c ∈ t, isNameChar c = true := by
  simp [isName]

/-- a name is a word -/
theorem isWord_of_isName {t : Text} (h : isName t = true) : IsWord t := by
  obtain ⟨hne, hall⟩ := isName_iff.1 h
  exact ⟨hne, fun c hc => not_blank_of_nameChar (hall c hc)⟩

/-- only letters have two cases -/
theorem nameChar_or_toLower (c : Char) : isNameChar c = true ∨ c.toLower = c := by
  unfold Char.toLower
  split
  · rename_i hupper
    exact Or.inl (isNameChar_iff.2 (Or.inl hupper))
  · exact Or.inr rfl

theorem isName_of_lower {t : Text} (h : isName (lower t) = true) : isName t = true := by
  obtain ⟨hne, hall⟩ := isName_iff.1 h
  refine isName_iff.2 ⟨fun ht => hne (by rw [ht]; rfl), fun c hc => ?_⟩
  rcases nameChar_or_toLower c with hname | hlower
  · exact hname
  · exact hall c (hlower ▸ List.mem_map_of_mem hc)

theorem IsWord.tight {w : Text} (h : IsWord w) : Tight w :=
  ⟨fun c hc => h.solid c (List.mem_of_head? hc), fun c hc => h.solid c (List.mem_of_getLast? hc)⟩

theorem IsWord.trim {w : Text} (h : IsWord w) : trim w = w := trim_eq_self_iff.2 h.tight

end StyleCheck.Text
