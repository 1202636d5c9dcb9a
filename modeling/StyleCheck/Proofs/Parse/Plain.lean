/-
Texts that are parts of one declaration.

A plain text is read in code and leaves us in code, without a brace, a semicolon or a comment in between, whether it
holds literals or not. So it changes nothing about the structure of what it stands in.
- `plain_of_chars`, `plain_quoted`: most characters, and literals, are plain;
- `Plain.append`: so are plain texts one behind the other, unless they form a comment opener where they meet;
- `Plain.isPrelude`, `Plain.isBody`: a plain text can stand before a brace and inside a block;
- `ofBody_of_plain`: a plain body with a colon is one declaration.
-/
import StyleCheck.Declaration
import StyleCheck.Proofs.Parse.Literals
import StyleCheck.Proofs.Text.Classes
import StyleCheck.Proofs.Text.Cutting

namespace StyleCheck

open Quoting Text

structure Plain (t : Text) : Prop where
  closed : code.run t = code
  unmarked : code.marks t = []
  uncommented : code.Uncommented t

instance (t : Text) : Decidable (Plain t) :=
  decidable_of_iff (code.run t = code ∧ code.marks t = [] ∧ code.Uncommented t)
    ⟨fun h => ⟨h.1, h.2.1, h.2.2⟩, fun h => ⟨h.closed, h.unmarked, h.uncommented⟩⟩

namespace Text

/-- whether a character does nothing to what it stands in -/
def isPlain (c : Char) : Bool :=
  !(isQuote c || c == '\\' || c == '/' || c == '{' || c == '}' || c == ';')

theorem isPlain_iff {c : Char} : isPlain c = true ↔
    isQuote c = false ∧ c ≠ '\\' ∧ c ≠ '/' ∧ c ≠ '{' ∧ c ≠ '}' ∧ c ≠ ';' := by
  simp [isPlain, and_assoc]

theorem isPlain_of_class {p : Char → Bool} {c : Char} (hc : p c = true)
    (hp : ['"', '\'', '\\', '/', '{', '}', ';'].all (!p ·) = true) : isPlain c = true := by
  simp only [List.all_cons, List.all_nil, Bool.and_true, Bool.and_eq_true, Bool.not_eq_true'] at hp
  obtain ⟨hdouble, hsingle, hescape, hslash, hopen, hclose, hend⟩ := hp
  have hquote : isQuote c = false := by simp [isQuote, ne_of_class hc hdouble, ne_of_class hc hsingle]
  exact isPlain_iff.2 ⟨hquote, ne_of_class hc hescape, ne_of_class hc hslash, ne_of_class hc hopen,
    ne_of_class hc hclose, ne_of_class hc hend⟩

theorem isPlain_of_nameChar {c : Char} (h : isNameChar c = true) : isPlain c = true :=
  isPlain_of_class h (by decide)

theorem isPlain_of_blank {c : Char} (h : isBlank c = true) : isPlain c = true := isPlain_of_class h (by decide)

end Text

/-! ## Plain texts -/

theorem plain_nil : Plain [] := ⟨rfl, rfl, trivial⟩

theorem plain_of_chars {t : Text} (h : ∀ c ∈ t, isPlain c = true) : Plain t := by
  induction t with
  | nil => exact plain_nil
  | cons c t ih =>
    obtain ⟨hc, ht⟩ := List.forall_mem_cons.1 h
    obtain ⟨hq, hesc, hslash, hopen, hclose, hend⟩ := isPlain_iff.1 hc
    have hnext : code.next c = code := by simp [next, code, hesc, hq]
    have hmark : Mark.ofChar? code c = none := by simp [Mark.ofChar?, isCutBy, code, hopen, hclose, hend]
    obtain ⟨hclosed, hunmarked, huncommented⟩ := ih ht
    refine ⟨?_, ?_, ?_⟩
    · rw [run_cons, hnext, hclosed]
    · rw [marks_cons, hnext, hmark, hunmarked]
      rfl
    · exact uncommented_cons.2 ⟨fun ho => hslash ho.2.1, by rwa [hnext]⟩

theorem plain_of_blank {t : Text} (h : Blank t) : Plain t := plain_of_chars fun c hc => isPlain_of_blank (h c hc)

theorem plain_of_isName {t : Text} (h : isName t = true) : Plain t :=
  plain_of_chars fun c hc => isPlain_of_nameChar ((isName_iff.1 h).2 c hc)

/-- a literal is plain, whatever it holds -/
theorem plain_quoted {q : Char} {s : Text} (hq : isQuote q = true) (hs : Inert q s) : Plain (quoted q s) := by
  obtain ⟨hclosed, hunmarked⟩ := marks_quoted hq hs
  have hstart : (Comment.run (Comment.start 1) []).place.inCode = true := rfl
  have hstrip : Comment.strip (quoted q s) = quoted q s := by
    have h := Comment.strip_quoted hstart hq hs []
    simpa [show Comment.strip [] = [] from rfl] using h
  exact ⟨hclosed, hunmarked, Comment.strip_eq_self_iff.1 hstrip⟩

/-- **Plain texts may be put one behind the other**, as long as no comment opens where they meet. -/
theorem Plain.append {a b : Text} (ha : Plain a) (hb : Plain b)
    (hmeet : a.getLast? = some '/' → b.head? ≠ some '*') : Plain (a ++ b) where
  closed := by rw [run_append, ha.closed, hb.closed]
  unmarked := by rw [marks_append, ha.unmarked, ha.closed, hb.unmarked]; rfl
  uncommented := ha.uncommented.append (by rw [ha.closed]; exact hb.uncommented) hmeet

/-- a plain character keeps the texts around it apart -/
theorem Plain.join {a b : Text} {c : Char} (ha : Plain a) (hb : Plain b) (hc : isPlain c = true) (hstar : c ≠ '*') :
    Plain (a ++ c :: b) := by
  have hone : Plain [c] := plain_of_chars (by simpa using hc)
  have hrest : Plain (c :: b) := hone.append hb fun hl => absurd (Option.some.inj hl) (isPlain_iff.1 hc).2.2.1
  exact ha.append hrest fun _ hh => hstar (Option.some.inj hh)

/-! ## What plain texts can stand in -/

theorem Plain.isPrelude {t : Text} (h : Plain t) : Block.IsPrelude t := ⟨by simp [h.unmarked], h.closed⟩

theorem Plain.isBody {t : Text} (h : Plain t) : Block.IsBody t := ⟨by rw [h.unmarked]; rfl, h.closed⟩

namespace Declaration

/-- what ends a segment would be marked -/
theorem not_isEnd {s : St} {c : Char} (h : Mark.ofChar? s.quoting c = none) : s.isEnd c = false := by
  unfold Mark.ofChar? at h
  unfold St.isEnd
  cases hq : s.quoting.isCode with
  | false => rfl
  | true =>
    split_ifs at h with h1 h2 h3 h4
    simp only [hq, true_and] at h1 h2 h3
    simp [h1, h2, h3]

theorem run_unmarked {t : Text} (s : St) (h : s.quoting.marks t = []) :
    (t.foldl step s).seen = t.reverse ++ s.seen ∧ (t.foldl step s).segments = s.segments ∧
      (t.foldl step s).begun = s.begun := by
  induction t generalizing s with
  | nil => exact ⟨rfl, rfl, rfl⟩
  | cons c t ih =>
    rw [marks_cons, List.append_eq_nil_iff, Option.toList_eq_nil_iff] at h
    have hend := not_isEnd h.1
    have hstep : step s c =
        ⟨s.quoting.next c, s.depthAfter c, s.read + c.utf8Size, s.begun, c :: s.seen, s.segments⟩ := by
      unfold step
      rw [hend]
      rfl
    obtain ⟨hseen, hsegments, hbegun⟩ := ih (step s c) (by rw [hstep]; exact h.2)
    rw [List.foldl_cons, hseen, hsegments, hbegun, hstep]
    exact ⟨by simp, rfl, rfl⟩

/-- nothing in a plain body ends a declaration -/
theorem segments_of_plain {t : Text} (h : Plain t) : segments t = [(0, t)] := by
  obtain ⟨hseen, hsegments, hbegun⟩ := run_unmarked start h.unmarked
  unfold segments
  simp only [hseen, hsegments, hbegun]
  simp [start]

/-- **A plain body with a colon behind a name is one declaration.** -/
theorem ofBody_of_plain {property value : Text} (hname : isName property = true)
    (h : Plain (property ++ ':' :: value)) : ofBody (property ++ ':' :: value) = [⟨property, trim value, 0⟩] := by
  have hchars := (isName_iff.1 hname).2
  have hcut : cut? ':' (property ++ ':' :: value) = some (property, value) :=
    cut?_eq_some_iff.2 ⟨rfl, fun hm => absurd (hchars _ hm) (by decide)⟩
  have htrim : trim property = property := (isWord_of_isName hname).trim
  have hlead : property.takeWhile isBlank = [] := by
    obtain ⟨c, t, rfl⟩ := List.exists_cons_of_ne_nil (isName_iff.1 hname).1
    simp [not_blank_of_nameChar (hchars c List.mem_cons_self)]
  unfold ofBody
  rw [segments_of_plain h]
  simp [ofSegment?, hcut, htrim, hname, hlead]

end Declaration

end StyleCheck
