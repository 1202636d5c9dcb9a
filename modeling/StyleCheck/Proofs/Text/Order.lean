/-
The order of texts.

Texts are compared by the code points of their characters. That is the order of their UTF-8 bytes: of two characters the
one with the smaller code point has the smaller byte at the first place where their forms differ, and neither form ends
before that place (`Below`).
- `digits_lt`: numbers are compared digit by digit, here in base 64;
- `below_encode`: so are the UTF-8 forms of two characters;
- `utf8_lt_utf8`: a smaller text has the smaller bytes, so names that ascend in one order ascend in the other
  (`Ascending`).
-/
import Mathlib.Data.Char
import Mathlib.Data.List.Lex
import StyleCheck.Text.Basic

namespace StyleCheck.Text

/-- the UTF-8 form -/
def utf8 (t : Text) : List UInt8 := t.flatMap String.utf8EncodeChar

/-- smaller at the first place where the two differ, and both have such a place -/
def Below : List UInt8 → List UInt8 → Prop
  | u :: x, v :: y => u < v ∨ u = v ∧ Below x y
  | _, _ => False

/-- what follows does not matter -/
theorem Below.append {x y : List UInt8} (h : Below x y) (s t : List UInt8) : x ++ s < y ++ t := by
  induction x generalizing y with
  | nil => simp [Below] at h
  | cons u x ih =>
    cases y with
    | nil => simp [Below] at h
    | cons v y =>
      rw [List.cons_append, List.cons_append, List.cons_lt_cons_iff]
      exact h.imp_right fun ⟨he, h⟩ => ⟨he, ih h⟩

section
variable {m n : Nat} (hm : m < 256) (hn : n < 256)
include hm hn

theorem ofNat_lt_ofNat_iff : UInt8.ofNat m < UInt8.ofNat n ↔ m < n := by
  rw [UInt8.lt_iff_toNat_lt, UInt8.toNat_ofNat_of_lt' hm, UInt8.toNat_ofNat_of_lt' hn]

theorem ofNat_eq_ofNat_iff : UInt8.ofNat m = UInt8.ofNat n ↔ m = n := by
  rw [← UInt8.toNat_inj, UInt8.toNat_ofNat_of_lt' hm, UInt8.toNat_ofNat_of_lt' hn]

end

/-- a number from its digits in base 64, the highest of them without a bound -/
theorem eq_digits (n : Nat) : n = n / 262144 * 262144 + n / 4096 % 64 * 4096 + n / 64 % 64 * 64 + n % 64 := by omega

/-- the first digit that differs decides -/
theorem digits_lt {m n : Nat} (h : m < n) : m / 262144 < n / 262144 ∨ m / 262144 = n / 262144 ∧
    (m / 4096 % 64 < n / 4096 % 64 ∨ m / 4096 % 64 = n / 4096 % 64 ∧
      (m / 64 % 64 < n / 64 % 64 ∨ m / 64 % 64 = n / 64 % 64 ∧ m % 64 < n % 64)) := by
  have hlt (n : Nat) : n % 64 < 64 := Nat.mod_lt n (by decide)
  have hm := eq_digits m
  have hn := eq_digits n
  have hm2 := hlt (m / 4096)
  have hm1 := hlt (m / 64)
  have hm0 := hlt m
  have hn2 := hlt (n / 4096)
  have hn1 := hlt (n / 64)
  have hn0 := hlt n
  -- from here on the digits are just numbers
  generalize m / 4096 % 64 = m2, m / 64 % 64 = m1, m % 64 = m0 at *
  generalize n / 4096 % 64 = n2, n / 64 % 64 = n1, n % 64 = n0 at *
  omega

/-- **The UTF-8 forms of two characters are in their order**, whatever their lengths. -/
theorem below_encode {c d : Char} (h : c < d) : Below (String.utf8EncodeChar c) (String.utf8EncodeChar d) := by
  have hlt : c.val.toNat < d.val.toNat := UInt32.lt_iff_toNat_lt.1 h
  have hmax (c : Char) : c.val.toNat < 1114112 := by
    have hvalid : c.val.toNat < 55296 ∨ 57343 < c.val.toNat ∧ c.val.toNat < 1114112 := c.valid
    omega
  have htop (c : Char) : c.val.toNat / 262144 % 8 = c.val.toNat / 262144 :=
    Nat.mod_eq_of_lt (by have := hmax c; omega)
  have hdigits := digits_lt hlt
  have hc := hmax c
  have hd := hmax d
  unfold String.utf8EncodeChar
  simp only
  split_ifs <;>
    simp (disch := omega) only [Below, ofNat_lt_ofNat_iff, ofNat_eq_ofNat_iff, htop, and_false, or_false] <;> omega

/-- **A smaller text has the smaller bytes.** -/
theorem utf8_lt_utf8 {a b : Text} (h : a < b) : utf8 a < utf8 b := by
  induction a generalizing b with
  | nil =>
    cases b with
    | nil => exact absurd h (List.lt_irrefl _)
    | cons d b =>
      have hne : utf8 (d :: b) ≠ [] := by
        simp [utf8, String.utf8EncodeChar_ne_nil]
      obtain ⟨u, x, hu⟩ := List.exists_cons_of_ne_nil hne
      rw [hu]
      exact List.nil_lt_cons u x
  | cons c a ih =>
    cases b with
    | nil => exact absurd h (List.not_lt_nil _)
    | cons d b =>
      unfold utf8 at ih ⊢
      rw [List.flatMap_cons, List.flatMap_cons]
      rcases List.cons_lt_cons_iff.1 h with hcd | ⟨rfl, hab⟩
      · exact (below_encode hcd).append _ _
      · exact List.append_left_lt (ih hab)

end StyleCheck.Text

namespace StyleCheck

open Text

/-- strictly ascending in the order of bytes -/
def Ascending (names : List Text) : Prop := names.Pairwise fun a b => utf8 a < utf8 b

theorem ascending_of_pairwise {names : List Text} (h : names.Pairwise (· < ·)) : Ascending names :=
  h.imp utf8_lt_utf8

end StyleCheck
