/-
Texts whose characters know where they come from.

A `Trace` is a list of characters, each with its index in an original text `t`. What is read may have lost characters
on its way here, comments for instance. As long as no line feed was among them, counting line feeds still leads to the
lines of `t`.
- `Reads t line w`: a reader that is on line `line` in front of `w` is on the line of `t` at every character of `w`;
- `Keeps.reads`: dropping characters other than line feeds changes nothing about that;
- `Reads.within`, `Reads.trimmed`: a part of what is read is read from the line that is reached in front of it;
- `Reads.standsAt`: in particular, this is the line of its first character.
-/
import StyleCheck.Proofs.Text.Blank

namespace StyleCheck

/-- a character and its index in the text it comes from -/
structure Site where
  char : Char
  index : Nat
  deriving DecidableEq, Repr

/-- a text whose characters know where they come from -/
abbrev Trace := List Site

namespace Trace

open Text

/-- the characters alone -/
def text (w : Trace) : Text := w.map Site.char

/-- every character of a text -/
def ofText (t : Text) : Trace := t.zipIdx.map fun (c, i) => ⟨c, i⟩

/-- line of the character at an index, counted from 1 -/
def lineOf (t : Text) (index : Nat) : Nat := 1 + newlines (t.take index)

/-- whether counting line feeds from `line` on leads to the line of every character of `w` in `t` -/
def Lined (t : Text) : Nat → Trace → Prop
  | _, [] => True
  | line, s :: w => line = lineOf t s.index ∧ Lined t (line + newlines [s.char]) w

/-- a part of `t`, as a reader meets it that counts line feeds and is on line `line` in front of it -/
structure Reads (t : Text) (line : Nat) (w : Trace) : Prop where
  part : w.Sublist (ofText t)
  lined : Lined t line w

/-- a part of `t` whose first character is on line `line` -/
structure StandsAt (t : Text) (line : Nat) (w : Trace) : Prop where
  part : w.Sublist (ofText t)
  first : ∃ s, w.head? = some s ∧ line = lineOf t s.index

@[simp] theorem text_nil : text [] = [] := rfl

@[simp] theorem text_cons (s : Site) (w : Trace) : text (s :: w) = s.char :: text w := rfl

@[simp] theorem text_append (a b : Trace) : text (a ++ b) = text a ++ text b := List.map_append

@[simp] theorem text_reverse (w : Trace) : text w.reverse = (text w).reverse := List.map_reverse

@[simp] theorem text_eq_nil {w : Trace} : text w = [] ↔ w = [] := List.map_eq_nil_iff

@[simp] theorem text_ofText (t : Text) : text (ofText t) = t := by
  unfold text ofText
  rw [List.map_map]
  exact List.zipIdx_map_fst 0 t

/-! ## Lines -/

theorem lined_append {t : Text} {line : Nat} {a b : Trace} :
    Lined t line (a ++ b) ↔ Lined t line a ∧ Lined t (line + newlines (text a)) b := by
  induction a generalizing line with
  | nil => simp [Lined]
  | cons s a ih =>
    rw [List.cons_append, Lined, Lined, ih, text_cons, newlines_cons s.char (text a), Nat.add_assoc, and_assoc]

/-- **A text is read from its first line on.** -/
theorem reads_ofText (t : Text) : Reads t 1 (ofText t) := by
  have hlined (u v : Text) : Lined (u ++ v) (1 + newlines u) ((v.zipIdx u.length).map fun (c, i) => ⟨c, i⟩) := by
    induction v generalizing u with
    | nil => trivial
    | cons c v ih =>
      refine ⟨by simp [lineOf], ?_⟩
      have h := ih (u ++ [c])
      rwa [List.append_assoc, newlines_append, ← Nat.add_assoc, List.length_append] at h
  exact ⟨List.Sublist.refl _, hlined [] t⟩

namespace Reads

variable {t : Text} {line : Nat}

/-- **A part of what is read is read from the line that is reached in front of it.** -/
theorem within {a b c : Trace} (h : Reads t line (a ++ b ++ c)) : Reads t (line + newlines (text a)) b := by
  obtain ⟨hpart, hlined⟩ := h
  refine ⟨List.Sublist.trans ?_ hpart, (lined_append.1 (lined_append.1 hlined).1).2⟩
  exact (List.sublist_append_right a b).trans (List.sublist_append_left _ c)

theorem front {a b : Trace} (h : Reads t line (a ++ b)) : Reads t line a :=
  within (a := []) h

theorem behind {a b : Trace} (h : Reads t line (a ++ b)) : Reads t (line + newlines (text a)) b :=
  within (c := []) (by rwa [List.append_nil])

theorem standsAt {w : Trace} (h : Reads t line w) (hw : w ≠ []) : StandsAt t line w := by
  cases w with
  | nil => exact absurd rfl hw
  | cons s w => exact ⟨h.part, s, rfl, h.lined.1⟩

end Reads

/-! ## What may be dropped -/

/-- `w` without some of its characters, none of them a line feed -/
inductive Keeps : Trace → Trace → Prop where
  | nil : Keeps [] []
  | keep (s : Site) {x w : Trace} : Keeps x w → Keeps (s :: x) (s :: w)
  | drop {s : Site} {x w : Trace} : s.char ≠ '\n' → Keeps x w → Keeps x (s :: w)

namespace Keeps

theorem refl (w : Trace) : Keeps w w := by
  induction w with
  | nil => exact .nil
  | cons s w ih => exact .keep s ih

theorem append {x w x' w' : Trace} (h : Keeps x w) (h' : Keeps x' w') : Keeps (x ++ x') (w ++ w') := by
  induction h with
  | nil => exact h'
  | keep s _ ih => exact .keep s ih
  | drop hs _ ih => exact .drop hs ih

theorem trans {x y w : Trace} (h : Keeps x y) (h' : Keeps y w) : Keeps x w := by
  induction h' generalizing x with
  | nil => exact h
  | keep s _ ih =>
    cases h with
    | keep _ h => exact .keep s (ih h)
    | drop hs h => exact .drop hs (ih h)
  | drop hs _ ih => exact .drop hs (ih h)

theorem sublist {x w : Trace} (h : Keeps x w) : x.Sublist w := by
  induction h with
  | nil => exact .slnil
  | keep s _ ih => exact ih.cons_cons s
  | drop _ _ ih => exact ih.cons _

/-- **Dropping characters other than line feeds keeps everything on its line.** -/
theorem reads {t : Text} {line : Nat} {x w : Trace} (h : Keeps x w) (hw : Reads t line w) : Reads t line x := by
  refine ⟨h.sublist.trans hw.part, ?_⟩
  have hlined := hw.lined
  clear hw
  induction h generalizing line with
  | nil => trivial
  | keep s _ ih => exact ⟨hlined.1, ih hlined.2⟩
  | @drop s _ _ hs _ ih =>
    have hzero : newlines [s.char] = 0 := by simp [newlines, hs]
    have hrest := hlined.2
    rw [hzero] at hrest
    exact ih hrest

end Keeps

/-! ## Trimming -/

/-- `w` without the blanks at its two ends -/
def trimmed (w : Trace) : Trace :=
  ((w.dropWhile fun s => isBlank s.char).reverse.dropWhile fun s => isBlank s.char).reverse

theorem text_dropWhile (w : Trace) : text (w.dropWhile fun s => isBlank s.char) = (text w).dropWhile isBlank :=
  (List.dropWhile_map (f := Site.char) (p := isBlank)).symm

theorem text_trimmed (w : Trace) : text (trimmed w) = trim (text w) := by
  rw [trimmed, text_reverse, text_dropWhile, text_reverse, text_dropWhile, trim, trimEnd, trimStart]

theorem Reads.trimmed {t : Text} {line : Nat} {w : Trace} (h : Reads t line w) :
    Reads t (line + newlines ((text w).takeWhile isBlank)) (trimmed w) := by
  let blank : Site → Bool := fun s => isBlank s.char
  have hlead : (text w).takeWhile isBlank = text (w.takeWhile blank) := List.takeWhile_map
  have hparts : w = w.takeWhile blank ++ Trace.trimmed w ++ ((w.dropWhile blank).reverse.takeWhile blank).reverse := by
    rw [Trace.trimmed, List.append_assoc, ← List.reverse_append, List.takeWhile_append_dropWhile, List.reverse_reverse,
      List.takeWhile_append_dropWhile]
  rw [hlead]
  rw [hparts] at h
  exact h.within

end Trace

end StyleCheck
