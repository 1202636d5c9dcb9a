/-
Classes of bytes.

A class of bytes asks of the first byte of a character what a class of characters asks of the character
(`class_byte`), as long as the two agree on ASCII, and either both hold of everything beyond it or neither does.
-/
import StyleCheck.Proofs.Bytes.Positions
import StyleCheck.Proofs.Text.Classes

namespace StyleCheck.Text

def isQuoteByte (b : UInt8) : Bool := b == byte '"' || b == byte '\''

/-- space, tab, line feed, form feed and carriage return -/
def isBlankByte (b : UInt8) : Bool :=
  b == byte ' ' || b == byte '\t' || b == byte '\n' || b == byte '\x0c' || b == byte '\r'

def isDigitByte (b : UInt8) : Bool := byte '0' ≤ b && b ≤ byte '9'

def isLetterByte (b : UInt8) : Bool := (byte 'A' ≤ b && b ≤ byte 'Z') || (byte 'a' ≤ b && b ≤ byte 'z')

/-- the bytes of name characters -/
def isNameByte (b : UInt8) : Bool := isLetterByte b || isDigitByte b || b == byte '-' || b == byte '_'

/-- those and all high ones -/
def isIdentByte (b : UInt8) : Bool := isNameByte b || 0x80 ≤ b

theorem class_byte {P : UInt8 → Bool} {p : Char → Bool} {r : Bool}
    (hascii : ∀ n < 0x80, P (UInt8.ofNat n) = p (Char.ofNat n)) (hP : ∀ b, High b → P b = r)
    (hp : ∀ c : Char, 0x80 ≤ c.toNat → p c = r) (c : Char) : P (byte c) = p c := by
  by_cases hc : c.toNat < 0x80
  · have h := hascii c.toNat hc
    rwa [Char.ofNat_toNat, ← byte_of_ascii hc] at h
  · have hc := Nat.le_of_not_lt hc
    rw [hP _ (high_byte hc), hp c hc]

/-! ## Beyond ASCII -/

section
variable {b : UInt8} (h : High b)
include h

theorem not_le_byte_of_high {c : Char} (hc : c.toNat < 0x80) : ¬b ≤ byte c :=
  fun hle => not_high_byte hc (UInt8.le_trans h hle)

theorem isQuoteByte_high : isQuoteByte b = false := by
  simp [isQuoteByte, ne_byte_of_high h (c := '"') (by decide), ne_byte_of_high h (c := '\'') (by decide)]

theorem isBlankByte_high : isBlankByte b = false := by
  have hne {c : Char} (hc : c.toNat < 0x80) : b ≠ byte c := ne_byte_of_high h hc
  simp [isBlankByte, hne (c := ' ') (by decide), hne (c := '\t') (by decide), hne (c := '\n') (by decide),
    hne (c := '\x0c') (by decide), hne (c := '\r') (by decide)]

theorem isDigitByte_high : isDigitByte b = false := by
  simp [isDigitByte, not_le_byte_of_high h (c := '9') (by decide)]

theorem isLetterByte_high : isLetterByte b = false := by
  simp [isLetterByte, not_le_byte_of_high h (c := 'Z') (by decide), not_le_byte_of_high h (c := 'z') (by decide)]

theorem isNameByte_high : isNameByte b = false := by
  simp [isNameByte, isLetterByte_high h, isDigitByte_high h, ne_byte_of_high h (c := '-') (by decide),
    ne_byte_of_high h (c := '_') (by decide)]

theorem isIdentByte_high : isIdentByte b = true := by
  have h : 0x80 ≤ b := h
  simp [isIdentByte, h]

end

section
variable {c : Char} (h : 0x80 ≤ c.toNat)
include h

theorem ne_of_beyond {d : Char} (hd : d.toNat < 0x80) : c ≠ d := by
  rintro rfl
  omega

theorem isQuote_beyond : isQuote c = false := by
  simp [isQuote, ne_of_beyond h (d := '"') (by decide), ne_of_beyond h (d := '\'') (by decide)]

theorem isAsciiBlank_beyond : isAsciiBlank c = false := by
  simp [isAsciiBlank, ne_of_beyond h (d := ' ') (by decide), ne_of_beyond h (d := '\t') (by decide),
    ne_of_beyond h (d := '\n') (by decide), ne_of_beyond h (d := '\x0c') (by decide),
    ne_of_beyond h (d := '\r') (by decide)]

theorem isDigit_beyond : c.isDigit = false := by
  rw [Bool.eq_false_iff, ne_eq, isDigit_iff]
  omega

theorem isAlpha_beyond : c.isAlpha = false := by
  change (c.isUpper || c.isLower) = false
  rw [Bool.eq_false_iff, ne_eq, Bool.or_eq_true, isUpper_iff, isLower_iff]
  omega

theorem isNameChar_beyond : isNameChar c = false := by
  rw [Bool.eq_false_iff, ne_eq, isNameChar_iff]
  omega

end

theorem ascii_of_quote {c : Char} (h : isQuote c = true) : c.toNat < 0x80 := by
  by_contra hc
  rw [isQuote_beyond (Nat.le_of_not_lt hc)] at h
  cases h

/-! ## First bytes -/

section
variable (c : Char)

@[simp] theorem isQuoteByte_byte : isQuoteByte (byte c) = isQuote c :=
  class_byte (by decide) (fun _ => isQuoteByte_high) (fun _ => isQuote_beyond) c

@[simp] theorem isBlankByte_byte : isBlankByte (byte c) = isAsciiBlank c :=
  class_byte (by decide) (fun _ => isBlankByte_high) (fun _ => isAsciiBlank_beyond) c

@[simp] theorem isDigitByte_byte : isDigitByte (byte c) = c.isDigit :=
  class_byte (by decide) (fun _ => isDigitByte_high) (fun _ => isDigit_beyond) c

@[simp] theorem isLetterByte_byte : isLetterByte (byte c) = c.isAlpha :=
  class_byte (by decide) (fun _ => isLetterByte_high) (fun _ => isAlpha_beyond) c

@[simp] theorem isNameByte_byte : isNameByte (byte c) = isNameChar c :=
  class_byte (by decide) (fun _ => isNameByte_high) (fun _ => isNameChar_beyond) c

@[simp] theorem isIdentByte_byte : isIdentByte (byte c) = isIdentChar c :=
  class_byte (by decide) (fun _ => isIdentByte_high) (fun c hc => by simp [isIdentChar, hc]) c

end

/-! ## All bytes -/

section
variable {P : UInt8 → Bool} {p : Char → Bool} (hbyte : ∀ c, P (byte c) = p c)
include hbyte

/-- **A class without high bytes** holds of all bytes of a text if it holds of all its characters. -/
theorem all_bytes (hhigh : ∀ b, High b → P b = false) (t : Text) : (bytes t).all P = t.all p := by
  induction t with
  | nil => rfl
  | cons c t ih =>
    rw [bytes_cons, List.all_append, ih, List.all_cons, encode_eq, List.all_cons, hbyte]
    by_cases hc : c.toNat < 0x80
    · rw [show (String.utf8EncodeChar c).tail = [] by rw [encode_of_ascii hc]; rfl]
      simp
    · have hfalse : p c = false := by rw [← hbyte, hhigh _ (high_byte (Nat.le_of_not_lt hc))]
      simp [hfalse]

/-- **A class of all high bytes** holds of as many bytes in front of a text as the characters in front of it have. -/
theorem length_takeWhile_bytes (hhigh : ∀ b, High b → P b = true) (t : Text) :
    ((bytes t).takeWhile P).length = byteSize (t.takeWhile p) := by
  induction t with
  | nil => rfl
  | cons c t ih =>
    rw [bytes_cons]
    cases hc : p c with
    | true =>
      have hall : ∀ b ∈ String.utf8EncodeChar c, P b = true := by
        rw [encode_eq]
        exact List.forall_mem_cons.2 ⟨(hbyte c).trans hc, fun b hb => hhigh b (high_of_mem_tail hb)⟩
      rw [List.takeWhile_append_of_pos hall, List.length_append, ih, String.length_utf8EncodeChar,
        List.takeWhile_cons_of_pos hc, byteSize_cons]
    | false =>
      have hfirst : ¬P (byte c) = true := by simp [hbyte, hc]
      rw [encode_eq, List.cons_append, List.takeWhile_cons_of_neg hfirst, List.takeWhile_cons_of_neg (by simp [hc])]
      rfl

end

end StyleCheck.Text
