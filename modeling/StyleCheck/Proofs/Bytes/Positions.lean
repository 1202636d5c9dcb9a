/-
The bytes of a text, and positions in them.

A position is a number of bytes. It is a boundary of `t` where it is the size of a part in front, and only there may `t`
be cut: `slice` fails anywhere else (`slice_eq_ok_iff`). The byte at a boundary is the first one of the next character
(`getElem?_bytes`), and as all bytes of characters beyond ASCII are high (`high_byte`, `high_behind`), a byte that is
that of an ASCII character is this character, at a boundary (`byte_eq_iff`).
-/
import Mathlib.Data.List.Infix
import StyleCheck.Text.Basic

namespace StyleCheck

namespace Text

/-- the UTF-8 form -/
def bytes (t : Text) : List UInt8 := t.flatMap String.utf8EncodeChar

/-- the first byte of a character; there is no other if it is ASCII -/
def byte (c : Char) : UInt8 := (String.utf8EncodeChar c).headD 0

/-- the bytes that no ASCII character has -/
def High (b : UInt8) : Prop := 0x80 ≤ b

instance (b : UInt8) : Decidable (High b) := inferInstanceAs (Decidable (0x80 ≤ b))

@[simp] theorem bytes_nil : bytes [] = [] := rfl

theorem bytes_cons (c : Char) (t : Text) : bytes (c :: t) = String.utf8EncodeChar c ++ bytes t := List.flatMap_cons

@[simp] theorem bytes_append (a b : Text) : bytes (a ++ b) = bytes a ++ bytes b := List.flatMap_append

@[simp] theorem length_bytes (t : Text) : (bytes t).length = byteSize t := by
  induction t with
  | nil => rfl
  | cons c t ih => rw [bytes_cons, List.length_append, String.length_utf8EncodeChar, ih, byteSize_cons]

/-! ## Bytes of one character -/

theorem encode_eq (c : Char) : String.utf8EncodeChar c = byte c :: (String.utf8EncodeChar c).tail := by
  unfold byte
  have hsize := c.utf8Size_pos
  rw [← String.length_utf8EncodeChar] at hsize
  cases h : String.utf8EncodeChar c with
  | nil => simp [h] at hsize
  | cons b bs => rfl

theorem encode_of_ascii {c : Char} (h : c.toNat < 0x80) : String.utf8EncodeChar c = [UInt8.ofNat c.toNat] :=
  if_pos (Nat.le_of_lt_succ h)

theorem byte_of_ascii {c : Char} (h : c.toNat < 0x80) : byte c = UInt8.ofNat c.toNat := by
  rw [byte, encode_of_ascii h]
  rfl

theorem size_of_ascii {c : Char} (h : c.toNat < 0x80) : c.utf8Size = 1 := by
  rw [← String.length_utf8EncodeChar, encode_of_ascii h]
  rfl

theorem high_ofNat {n k : Nat} (hk : 0x80 ≤ k) (hn : n + k < 0x100) : High (UInt8.ofNat (n + k)) := by
  rw [High, UInt8.le_iff_toNat_le, UInt8.toNat_ofNat_of_lt' hn]
  exact Nat.le_trans hk (Nat.le_add_left ..)

/-- **All bytes of a character beyond ASCII are high.** -/
theorem high_of_mem {c : Char} (h : 0x80 ≤ c.toNat) : ∀ b ∈ String.utf8EncodeChar c, High b := by
  have hn : ¬c.val.toNat ≤ 127 := Nat.not_le_of_lt h
  unfold String.utf8EncodeChar
  simp only [hn, if_false]
  split
  · simp only [List.forall_mem_cons, List.not_mem_nil, false_implies, implies_true, and_true]
    exact ⟨high_ofNat (by decide) (by omega), high_ofNat (by decide) (by omega)⟩
  split
  · simp only [List.forall_mem_cons, List.not_mem_nil, false_implies, implies_true, and_true]
    exact ⟨high_ofNat (by decide) (by omega), high_ofNat (by decide) (by omega), high_ofNat (by decide) (by omega)⟩
  · simp only [List.forall_mem_cons, List.not_mem_nil, false_implies, implies_true, and_true]
    exact ⟨high_ofNat (by decide) (by omega), high_ofNat (by decide) (by omega), high_ofNat (by decide) (by omega),
      high_ofNat (by decide) (by omega)⟩

theorem high_byte {c : Char} (h : 0x80 ≤ c.toNat) : High (byte c) :=
  high_of_mem h _ (by rw [encode_eq]; exact List.mem_cons_self)

/-- all bytes of a character behind its first one are high -/
theorem high_of_mem_tail {c : Char} {b : UInt8} (h : b ∈ (String.utf8EncodeChar c).tail) : High b := by
  by_cases hc : c.toNat < 0x80
  · rw [encode_of_ascii hc] at h
    cases h
  · exact high_of_mem (Nat.le_of_not_lt hc) b (List.mem_of_mem_tail h)

theorem not_high_byte {c : Char} (h : c.toNat < 0x80) : ¬High (byte c) := by
  rw [byte_of_ascii h, High, UInt8.le_iff_toNat_le, UInt8.toNat_ofNat_of_lt' (Nat.lt_trans h (by decide))]
  exact Nat.not_le_of_lt h

theorem ne_byte_of_high {b : UInt8} (hb : High b) {c : Char} (h : c.toNat < 0x80) : b ≠ byte c :=
  fun he => not_high_byte h (he ▸ hb)

/-- **The byte of an ASCII character is this character.** -/
theorem byte_eq_iff {c d : Char} (hd : d.toNat < 0x80) : byte c = byte d ↔ c = d := by
  refine ⟨fun h => ?_, congrArg byte⟩
  by_cases hc : c.toNat < 0x80
  · rw [byte_of_ascii hc, byte_of_ascii hd] at h
    have hn := congrArg UInt8.toNat h
    rw [UInt8.toNat_ofNat_of_lt' (Nat.lt_trans hc (by decide)),
      UInt8.toNat_ofNat_of_lt' (Nat.lt_trans hd (by decide))] at hn
    exact Char.toNat_inj.1 hn
  · exact absurd h (ne_byte_of_high (high_byte (Nat.le_of_not_lt hc)) hd)

/-! ## Bytes at positions -/

/-- **The byte at a boundary is the first one of the next character.** -/
theorem getElem?_bytes (u v : Text) : (bytes (u ++ v))[byteSize u]? = v.head?.map byte := by
  rw [bytes_append, List.getElem?_append_right (by simp), length_bytes, Nat.sub_self]
  cases v with
  | nil => rfl
  | cons c v =>
    rw [bytes_cons, encode_eq]
    rfl

/-- **All bytes up to the next boundary are high.** -/
theorem high_behind {u v : Text} {c : Char} {i : Nat} (hi : byteSize u < i) (hi' : i < byteSize (u ++ [c])) :
    ∃ b, (bytes (u ++ c :: v))[i]? = some b ∧ High b := by
  obtain ⟨k, rfl⟩ := Nat.exists_eq_add_of_lt hi
  simp only [byteSize_append, byteSize_cons, byteSize_nil] at hi'
  have hk : k < (String.utf8EncodeChar c).tail.length := by
    rw [List.length_tail, String.length_utf8EncodeChar]
    omega
  refine ⟨(String.utf8EncodeChar c).tail[k], ?_, high_of_mem_tail (List.getElem_mem hk)⟩
  have hindex : byteSize u + k + 1 - byteSize u = k + 1 := by omega
  have hbehind : bytes (c :: v) = byte c :: ((String.utf8EncodeChar c).tail ++ bytes v) := by
    rw [bytes_cons, encode_eq]
    rfl
  rw [bytes_append, List.getElem?_append_right (by rw [length_bytes]; omega), length_bytes, hindex, hbehind,
    List.getElem?_cons_succ, List.getElem?_append_left hk, List.getElem?_eq_getElem hk]

/-! ## Slices -/

/-- cut at a position, if it is a boundary -/
def cutAt? : Nat → Text → Option (Text × Text)
  | 0, t => some ([], t)
  | _ + 1, [] => none
  | i + 1, c :: t => if c.utf8Size ≤ i + 1 then (cutAt? (i + 1 - c.utf8Size) t).map fun (a, b) => (c :: a, b) else none

/-- a slice that is out of range, or begins or ends inside a character -/
structure BadSlice where
  start : Nat
  stop : Nat
  deriving DecidableEq, Repr

/-- the part between two positions -/
def slice (t : Text) (start stop : Nat) : Except BadSlice Text :=
  match (cutAt? stop t).bind fun (a, _) => cutAt? start a with
  | some (_, part) => .ok part
  | none => .error ⟨start, stop⟩

/-- the part behind a position -/
def sliceFrom (t : Text) (start : Nat) : Except BadSlice Text := slice t start (byteSize t)

theorem bind_eq_ok {ε α β : Type} {x : Except ε α} {f : α → Except ε β} {b : β} :
    (x >>= f) = .ok b ↔ ∃ a, x = .ok a ∧ f a = .ok b := by
  cases x with
  | error e => exact ⟨nofun, fun ⟨_, h, _⟩ => nomatch h⟩
  | ok a =>
    refine ⟨fun h => ⟨a, rfl, h⟩, ?_⟩
    rintro ⟨a', h, hf⟩
    obtain rfl := Except.ok.inj h
    exact hf

/-- **A text is cut where a part of it ends.** -/
theorem cutAt?_eq_some {i : Nat} {t a b : Text} : cutAt? i t = some (a, b) ↔ t = a ++ b ∧ byteSize a = i := by
  induction t generalizing i a with
  | nil =>
    cases i with
    | zero =>
      simp only [cutAt?, Option.some.injEq, Prod.mk.injEq]
      constructor
      · rintro ⟨rfl, rfl⟩
        exact ⟨rfl, rfl⟩
      · rintro ⟨h, -⟩
        obtain ⟨rfl, rfl⟩ := List.append_eq_nil_iff.1 h.symm
        exact ⟨rfl, rfl⟩
    | succ i =>
      refine ⟨nofun, ?_⟩
      rintro ⟨h, hsize⟩
      obtain ⟨rfl, rfl⟩ := List.append_eq_nil_iff.1 h.symm
      cases hsize
  | cons c t ih =>
    have hpos := c.utf8Size_pos
    cases i with
    | zero =>
      simp only [cutAt?, Option.some.injEq, Prod.mk.injEq]
      constructor
      · rintro ⟨rfl, rfl⟩
        exact ⟨rfl, rfl⟩
      · rintro ⟨h, hsize⟩
        cases a with
        | nil => exact ⟨rfl, h⟩
        | cons d a =>
          have hd := d.utf8Size_pos
          rw [byteSize_cons] at hsize
          omega
    | succ i =>
      unfold cutAt?
      split
      · rename_i hle
        simp only [Option.map_eq_some_iff, Prod.exists, Prod.mk.injEq]
        constructor
        · rintro ⟨a, b, h, rfl, rfl⟩
          obtain ⟨rfl, hsize⟩ := ih.1 h
          exact ⟨rfl, by rw [byteSize_cons, hsize]; omega⟩
        · rintro ⟨h, hsize⟩
          cases a with
          | nil => cases hsize
          | cons d a =>
            obtain ⟨rfl, rfl⟩ := List.cons.inj h
            exact ⟨a, b, ih.2 ⟨rfl, by rw [byteSize_cons] at hsize; omega⟩, rfl, rfl⟩
      · refine ⟨nofun, ?_⟩
        rintro ⟨h, hsize⟩
        cases a with
        | nil => cases hsize
        | cons d a =>
          obtain ⟨rfl, rfl⟩ := List.cons.inj h
          rw [byteSize_cons] at hsize
          omega

/-- **What lies between two positions**: there has to be a boundary at either. -/
theorem slice_eq_ok_iff {t part : Text} {start stop : Nat} :
    slice t start stop = .ok part ↔
      ∃ before behind, t = before ++ part ++ behind ∧ byteSize before = start ∧ byteSize (before ++ part) = stop := by
  have hcut : slice t start stop = .ok part ↔
      ∃ before behind, cutAt? stop t = some (before ++ part, behind) ∧ byteSize before = start := by
    unfold slice
    constructor
    · intro h
      cases hstop : cutAt? stop t with
      | none => simp [hstop] at h
      | some p =>
        obtain ⟨a, behind⟩ := p
        cases hstart : cutAt? start a with
        | none => simp [hstop, hstart] at h
        | some p =>
          obtain ⟨before, part'⟩ := p
          simp only [hstop, Option.bind_some, hstart, Except.ok.injEq] at h
          obtain rfl := h
          obtain ⟨rfl, hsize⟩ := cutAt?_eq_some.1 hstart
          exact ⟨before, behind, rfl, hsize⟩
    · rintro ⟨before, behind, hstop, hsize⟩
      simp only [hstop, Option.bind_some, cutAt?_eq_some.2 ⟨rfl, hsize⟩]
  simp only [hcut, cutAt?_eq_some]
  constructor
  · rintro ⟨before, behind, ⟨ht, hstop⟩, hstart⟩
    exact ⟨before, behind, ht, hstart, hstop⟩
  · rintro ⟨before, behind, ht, hstart, hstop⟩
    exact ⟨before, behind, ⟨ht, hstop⟩, hstart⟩

theorem slice_parts (before part behind : Text) :
    slice (before ++ part ++ behind) (byteSize before) (byteSize (before ++ part)) = .ok part :=
  slice_eq_ok_iff.2 ⟨before, behind, rfl, rfl, rfl⟩

theorem sliceFrom_parts (before behind : Text) : sliceFrom (before ++ behind) (byteSize before) = .ok behind :=
  slice_eq_ok_iff.2 ⟨before, [], (List.append_nil _).symm, rfl, rfl⟩

example : slice "aé".toList 1 3 = .ok ['é'] ∧ slice "aé".toList 1 2 = .error ⟨1, 2⟩ ∧
    slice "aé".toList 2 3 = .error ⟨2, 3⟩ ∧ slice "aé".toList 3 4 = .error ⟨3, 4⟩ := by decide

/-! ## Occurrences -/

/-- position of the first occurrence of `part` -/
def find? (part : Text) : Text → Option Nat
  | [] => if part.isEmpty then some 0 else none
  | c :: t => if part.isPrefixOf (c :: t) then some 0 else (find? part t).map (c.utf8Size + ·)

/-- **The first occurrence**: no other one ends further to the left. -/
theorem find?_eq_some_iff {part t : Text} (hpart : part ≠ []) {n : Nat} :
    find? part t = some n ↔
      ∃ before behind, t = before ++ part ++ behind ∧ byteSize before = n ∧ ¬part <:+: before ++ part.dropLast := by
  induction t generalizing n with
  | nil => simp [find?, hpart]
  | cons c t ih =>
    unfold find?
    split
    · rename_i hfront
      obtain ⟨behind, hbehind⟩ := List.isPrefixOf_iff_prefix.1 hfront
      constructor
      · intro h
        refine ⟨[], behind, hbehind.symm, by simpa using h, fun hinside => ?_⟩
        have hlength := hinside.length_le
        have hpos := List.length_pos_iff.2 hpart
        rw [List.nil_append, List.length_dropLast] at hlength
        omega
      · rintro ⟨before, behind, ht, rfl, hfirst⟩
        cases before with
        | nil => rfl
        | cons d before =>
          -- the part would begin at `d` already
          have hlonger : d :: before ++ part.dropLast <+: c :: t := by
            rw [ht, List.append_assoc]
            exact (List.prefix_append_right_inj _).2 ((List.dropLast_prefix part).trans (List.prefix_append ..))
          have hlength : part.length ≤ (d :: before ++ part.dropLast).length := by
            rw [List.length_append, List.length_cons, List.length_dropLast]
            omega
          have hearlier := List.prefix_of_prefix_length_le (List.isPrefixOf_iff_prefix.1 hfront) hlonger hlength
          exact absurd hearlier.isInfix hfirst
    · rename_i hfront
      rw [List.isPrefixOf_iff_prefix] at hfront
      simp only [Option.map_eq_some_iff, ih]
      constructor
      · rintro ⟨-, ⟨before, behind, rfl, rfl, hfirst⟩, rfl⟩
        refine ⟨c :: before, behind, rfl, rfl, fun hinside => ?_⟩
        rcases List.infix_cons_iff.1 hinside with hhead | hlater
        · refine hfront (hhead.trans ?_)
          rw [List.append_assoc]
          exact (List.prefix_append_right_inj (c :: before)).2
            ((List.dropLast_prefix part).trans (List.prefix_append ..))
        · exact hfirst hlater
      · rintro ⟨before, behind, ht, rfl, hfirst⟩
        cases before with
        | nil => exact absurd ⟨behind, ht.symm⟩ hfront
        | cons d before =>
          obtain ⟨rfl, rfl⟩ := List.cons.inj ht
          exact ⟨_, ⟨before, behind, rfl, rfl, fun h => hfirst (List.infix_cons h)⟩, rfl⟩

theorem find?_eq_none {part t : Text} (h : find? part t = none) : ¬part <:+: t := by
  induction t with
  | nil =>
    unfold find? at h
    split at h
    · cases h
    · rename_i hpart
      rw [List.infix_nil]
      simpa using hpart
  | cons c t ih =>
    unfold find? at h
    split at h
    · cases h
    · rename_i hfront
      rw [List.infix_cons_iff, not_or, ← List.isPrefixOf_iff_prefix]
      exact ⟨hfront, ih (Option.map_eq_none_iff.1 h)⟩

/-! ## Parts -/

theorem eq_nil_of_singleton {c d : Char} {a b : Text} (h : [c] = a ++ d :: b) : a = [] := by
  cases a with
  | nil => rfl
  | cons e a => simp at h

/-- **How a text is read if a backslash hides the character behind it**, and other characters may lead far. -/
theorem escape_strongInduction {P : Text → Prop} (nil : P []) (lone : P ['\\'])
    (escape : ∀ c v, P v → P ('\\' :: c :: v))
    (char : ∀ c v, c ≠ '\\' → (∀ w, w <:+ v → P w) → P (c :: v)) (v : Text) : P v := by
  induction hn : v.length using Nat.strongRecOn generalizing v with
  | _ n ih =>
    match v, hn with
    | [], _ => exact nil
    | c :: v, hn =>
      rw [List.length_cons] at hn
      by_cases hc : c = '\\'
      · subst hc
        cases v with
        | nil => exact lone
        | cons d v =>
          rw [List.length_cons] at hn
          exact escape d v (ih v.length (by omega) v rfl)
      · exact char c v hc fun w hw => ih w.length (by have := hw.length_le; omega) w rfl

/-- the same where no character leads further than to the next one -/
theorem escape_induction {P : Text → Prop} (nil : P []) (lone : P ['\\']) (escape : ∀ c v, P v → P ('\\' :: c :: v))
    (char : ∀ c v, c ≠ '\\' → P v → P (c :: v)) : ∀ v, P v :=
  escape_strongInduction nil lone escape fun c v hc ih => char c v hc (ih v (List.suffix_refl v))

end Text

end StyleCheck
