/-
Values that name an animation.

A value is a sequence of parts with blanks between them: one part spells a name, the others only say how to play it
(`Filler`). The blanks inside a function call separate no parts, so a call is read as words that belong together
(`InCall`): the parentheses open before a word decide whether it is looked at.
- `InCall.arguments`: arguments leave as many parentheses open as were open before them;
- `Filler.skip`: a part that does not name an animation is passed over;
- `named?_of_spaced`: so a value names what its one other part spells, wherever that stands;
- `Spaced.isPart`: a value is a part of one declaration, as its own parts are.
-/
import Mathlib.Data.List.Defs
import StyleCheck.Animation.Name
import StyleCheck.Proofs.Parse.Plain

namespace StyleCheck

open Text

/-! ## The parts of a value -/

namespace Animation

/-- a name as it is written, bare or in quotes -/
inductive Spelled (name : Text) : Text → Prop where
  | unquoted : Spelled name name
  | literal {q : Char} : isQuote q = true → Spelled name (quoted q name)

/-- a character of arguments that is no parenthesis -/
def isArgument (c : Char) : Bool := isNameChar c || c == '.' || c == ',' || c == '%' || c == '+' || c == ' '

/-- arguments with balanced parentheses -/
inductive Arguments : Text → Prop where
  | nil : Arguments []
  | char {c : Char} {t : Text} : isArgument c = true → Arguments t → Arguments (c :: t)
  | group {a t : Text} : Arguments a → Arguments t → Arguments ('(' :: a ++ ')' :: t)

/-- a keyword as it can stand in a value: one word without a comma behind it or quotes around it -/
structure IsKeyword (extra : List Text) (w : Text) : Prop where
  word : IsWord w
  plain : Plain w
  whole : bare w = w
  /-- it leaves no function call open -/
  balanced : w.count '(' ≤ w.count ')'
  /-- ASCII letters may be in either case -/
  reserved : ∃ k ∈ keywords ++ extra, lower w = lower k

/-- a part of a value that does not name an animation -/
inductive Filler (extra : List Text) : Text → Prop where
  | number {w : Text} : isNumeric w = true → Filler extra w
  | keyword {w : Text} : IsKeyword extra w → Filler extra w
  | call {f a : Text} : (∀ c ∈ f, isNameChar c = true) → Arguments a → Filler extra (f ++ '(' :: a ++ [')'])

/-- the parts of a value, with blanks between them -/
inductive Spaced : List Text → Text → Prop where
  | one (w : Text) : Spaced [w] w
  | cons {w gap t : Text} {ws : List Text} : gap ≠ [] → Blank gap → Spaced ws t → Spaced (w :: ws) (w ++ gap ++ t)

/-- a name that animations can have -/
structure IsReference (extra : List Text) (name : Text) : Prop where
  isName : isName name = true
  notNumeric : isNumeric name = false
  notReserved : ∀ k ∈ keywords ++ extra, lower name ≠ lower k

variable {extra : List Text}

/-- parts with one space between two of them -/
theorem spaced_intercalate {ws : List Text} (h : ws ≠ []) : Spaced ws ([' '].intercalate ws) := by
  induction ws with
  | nil => exact absurd rfl h
  | cons w ws ih =>
    cases ws with
    | nil => simpa using Spaced.one w
    | cons w' ws =>
      rw [List.intercalate_cons_cons]
      exact .cons (by simp) (by decide) (ih (by simp))

/-! ## Keywords and numbers -/

theorem isReserved_iff {w : Text} : isReserved extra w = true ↔ ∃ k ∈ keywords ++ extra, lower w = lower k := by
  have hlower : ∀ k ∈ keywords, lower k = k := by decide
  simp only [isReserved, Bool.or_eq_true, List.contains_iff_mem, List.mem_map, List.mem_append]
  constructor
  · rintro (hk | ⟨k, hk, he⟩)
    · exact ⟨_, Or.inl hk, (hlower _ hk).symm⟩
    · exact ⟨k, Or.inr hk, he.symm⟩
  · rintro ⟨k, hk | hk, he⟩
    · rw [he, hlower k hk]
      exact Or.inl hk
    · exact Or.inr ⟨k, hk, he.symm⟩

/-- a character of a number or a duration -/
def isNumeral (c : Char) : Bool := isNameChar c || c == '.' || c == '+'

theorem not_blank_of_numeral {c : Char} (h : isNumeral c = true) : isBlank c = false := by
  simp only [isNumeral, Bool.or_eq_true, beq_iff_eq] at h
  rcases h with (h | rfl) | rfl
  · exact not_blank_of_nameChar h
  · rfl
  · rfl

theorem mem_dropUnit {t : Text} {c : Char} (h : c ∈ t) : c ∈ dropUnit t ∨ c = 'm' ∨ c = 's' := by
  unfold dropUnit
  cases hms : "ms".toList.isSuffixOf? t with
  | some rest =>
    rw [← List.isSuffixOf?_eq_some_iff_append_eq.1 hms] at h
    simpa using h
  | none =>
    cases hs : ['s'].isSuffixOf? t with
    | some rest =>
      rw [← List.isSuffixOf?_eq_some_iff_append_eq.1 hs] at h
      simp only [List.mem_append, List.mem_singleton] at h
      exact h.imp_right Or.inr
    | none => exact Or.inl h

theorem mem_dropSign {t : Text} {c : Char} (h : c ∈ t) : c ∈ dropSign t ∨ c = '+' ∨ c = '-' := by
  unfold dropSign
  split
  · exact (List.mem_cons.1 h).symm.imp_right Or.inl
  · exact (List.mem_cons.1 h).symm.imp_right Or.inr
  · exact Or.inl h

theorem isNumeral_of_isNumeric {w : Text} (h : isNumeric w = true) : ∀ c ∈ w, isNumeral c = true := by
  intro c hc
  have hdigits : ∀ d ∈ dropSign (dropUnit (lower w)), isNumeral d = true := by
    intro d hd
    simp only [isNumeric, Bool.and_eq_true, List.all_eq_true] at h
    have hd := h.1.1 d hd
    simp only [Bool.or_eq_true, beq_iff_eq] at hd
    rcases hd with hd | rfl
    · simp [isNumeral, isNameChar, Char.isAlphanum, hd]
    · rfl
  rcases nameChar_or_toLower c with hname | hlower
  · simp [isNumeral, hname]
  -- the character is in the word in lower case, in its digits, its sign or its unit
  have hmem : c ∈ lower w := hlower ▸ List.mem_map_of_mem hc
  rcases mem_dropUnit hmem with hmem | rfl | rfl
  · rcases mem_dropSign hmem with hmem | rfl | rfl
    · exact hdigits c hmem
    · rfl
    · rfl
  · rfl
  · rfl

theorem isWord_of_isNumeric {w : Text} (h : isNumeric w = true) : IsWord w := by
  refine ⟨?_, fun c hc => not_blank_of_numeral (isNumeral_of_isNumeric h c hc)⟩
  rintro rfl
  cases h

/-! ## The text of a part -/

theorem bare_of_last {w : Text} (hlast : w.getLast? ≠ some ',') : bare w = unquoteLoosely w := by
  have hkeep : w.reverse.dropWhile (· == ',') = w.reverse := by
    rw [← List.head?_reverse] at hlast
    cases hw : w.reverse with
    | nil => rfl
    | cons c t =>
      have hc : c ≠ ',' := by simpa [hw] using hlast
      rw [List.dropWhile_cons_of_neg (by simpa using hc)]
  unfold bare
  rw [hkeep, List.reverse_reverse]

/-- nothing is taken off a text without quotes -/
theorem unquoteLoosely_of_class {p : Char → Bool} {w : Text} (h : ∀ c ∈ w, p c = true) (hdouble : p '"' = false)
    (hsingle : p '\'' = false) : unquoteLoosely w = w := by
  cases w with
  | nil => rfl
  | cons c t =>
    have hc := h c List.mem_cons_self
    have hquote : isQuote c = false := by simp [isQuote, ne_of_class hc hdouble, ne_of_class hc hsingle]
    simp [unquoteLoosely, inside?, hquote]

theorem bare_of_class {p : Char → Bool} {w : Text} (h : ∀ c ∈ w, p c = true) (hdouble : p '"' = false)
    (hsingle : p '\'' = false) (hcomma : p ',' = false) : bare w = w := by
  have hlast : w.getLast? ≠ some ',' := fun hl => ne_of_class (h _ (List.mem_of_getLast? hl)) hcomma rfl
  rw [bare_of_last hlast, unquoteLoosely_of_class h hdouble hsingle]

/-- a keyword that is a name can stand in a value in any case -/
theorem isKeyword_of_isName {w k : Text} (h : isName w = true) (hk : k ∈ keywords ++ extra)
    (he : lower w = lower k) : IsKeyword extra w where
  word := isWord_of_isName h
  plain := plain_of_isName h
  whole := bare_of_class (isName_iff.1 h).2 rfl rfl rfl
  balanced := by
    rw [List.count_eq_zero.2 fun hm => ne_of_class ((isName_iff.1 h).2 _ hm) (d := '(') rfl rfl]
    exact Nat.zero_le _
  reserved := ⟨k, hk, he⟩

/-- so can every keyword that is always reserved -/
theorem isKeyword_of_mem {w : Text} (h : lower w ∈ keywords) : IsKeyword extra w := by
  have hkeywords : ∀ k ∈ keywords, isName k = true ∧ lower k = k := by decide
  obtain ⟨hname, hlower⟩ := hkeywords _ h
  exact isKeyword_of_isName (isName_of_lower hname) (List.mem_append_left _ h) hlower.symm

/-- a text between blanks -/
structure IsPart (w : Text) : Prop where
  nonempty : w ≠ []
  tight : Tight w
  plain : Plain w

theorem IsPart.of_word {w : Text} (h : IsWord w) (hp : Plain w) : IsPart w := ⟨h.nonempty, h.tight, hp⟩

theorem Arguments.plain {a : Text} (h : Arguments a) : ∀ c ∈ a, isPlain c = true := by
  induction h with
  | nil => simp
  | char hc _ ih =>
    have hchar : isPlain _ = true := isPlain_of_class hc (by decide)
    exact List.forall_mem_cons.2 ⟨hchar, ih⟩
  | group _ _ iha iht =>
    simp only [List.cons_append, List.forall_mem_cons, List.forall_mem_append]
    exact ⟨by decide, iha, by decide, iht⟩

theorem Filler.isPart {w : Text} (h : Filler extra w) : IsPart w := by
  cases h with
  | number h =>
    have hchars := isNumeral_of_isNumeric h
    exact .of_word (isWord_of_isNumeric h) (plain_of_chars fun c hc => isPlain_of_class (hchars c hc) (by decide))
  | keyword h => exact .of_word h.word h.plain
  | @call f a hf ha =>
    refine ⟨by simp, ⟨fun c hc => ?_, fun c hc => ?_⟩, plain_of_chars ?_⟩
    · cases f with
      | nil =>
        obtain rfl : '(' = c := by simpa using hc
        rfl
      | cons d f =>
        obtain rfl : d = c := by simpa using hc
        exact not_blank_of_nameChar (hf _ List.mem_cons_self)
    · rw [List.getLast?_concat] at hc
      obtain rfl : ')' = c := Option.some.inj hc
      rfl
    · simp only [List.forall_mem_append, List.forall_mem_cons]
      exact ⟨⟨fun c hc => isPlain_of_nameChar (hf c hc), by decide, ha.plain⟩, by decide, by simp⟩

theorem inert_of_isName {q : Char} (hq : isQuote q = true) {name : Text} (h : isName name = true) : Inert q name := by
  intro c hc
  have hchar := (isName_iff.1 h).2 c hc
  have hquote : isNameChar q = false := by rcases isQuote_iff.1 hq with rfl | rfl <;> rfl
  exact ⟨ne_of_class hchar hquote, ne_of_class hchar rfl, ne_of_class hchar rfl⟩

theorem isWord_quoted {q : Char} (hq : isQuote q = true) {name : Text} (h : isName name = true) :
    IsWord (quoted q name) := by
  refine ⟨by simp [quoted], ?_⟩
  simp only [quoted, List.cons_append, List.forall_mem_cons, List.forall_mem_append]
  exact ⟨solid_of_quote hq, (isWord_of_isName h).solid, solid_of_quote hq, by simp⟩

theorem Spelled.isWord {name w : Text} (hname : isName name = true) (h : Spelled name w) : IsWord w := by
  cases h with
  | unquoted => exact isWord_of_isName hname
  | literal hq => exact isWord_quoted hq hname

theorem Spelled.isPart {name w : Text} (hname : isName name = true) (h : Spelled name w) : IsPart w := by
  refine .of_word (h.isWord hname) ?_
  cases h with
  | unquoted => exact plain_of_isName hname
  | literal hq => exact plain_quoted hq (inert_of_isName hq hname)

/-- a value is one part of a declaration, as each of its parts is -/
theorem Spaced.isPart {ws : List Text} {t : Text} (h : Spaced ws t) (hws : ∀ w ∈ ws, IsPart w) : IsPart t := by
  induction h with
  | one w => exact hws w (List.mem_singleton_self w)
  | @cons w gap t ws hne hgap _ ih =>
    have hw := hws w List.mem_cons_self
    have ht := ih fun x hx => hws x (List.mem_cons_of_mem _ hx)
    refine ⟨by simp [hw.nonempty], tight_append hw.nonempty ht.nonempty hw.tight ht.tight gap, ?_⟩
    obtain ⟨c, gap, rfl⟩ := List.exists_cons_of_ne_nil hne
    obtain ⟨hc, hgap⟩ := blank_cons.1 hgap
    have hrest : Plain (gap ++ t) := (plain_of_blank hgap).append ht.plain fun hl => by
      exact absurd (hgap _ (List.mem_of_getLast? hl)) (by decide)
    rw [List.append_assoc]
    exact hw.plain.join hrest (isPlain_of_blank hc) (ne_of_class hc (by decide))

/-! ## Reading a call -/

/-- inside a call whose words so far leave `depth` parentheses open, `d` of them before the word `u` being read -/
structure InCall (d : Nat) (u : Text) (depth : Nat) : Prop where
  solid : ∀ c ∈ u, isBlank c = false
  inside : 0 < d ∨ '(' ∈ u
  opened : d + u.count '(' = depth + u.count ')'

namespace InCall

variable (extra) {d depth : Nat} {u : Text}

/-- a blank ends the word, whose parentheses are counted -/
theorem blank (h : InCall d u depth) {c : Char} (hc : isBlank c = true) (t : Text) :
    pick? extra d (words (u ++ c :: t)) = pick? extra depth (words t) := by
  have hopened := h.opened
  rw [words_append_blank u hc]
  by_cases hu : u = []
  · obtain rfl : d = depth := by simpa [hu] using hopened
    rw [hu]
    rfl
  · have hdepth : d + u.count '(' - u.count ')' = depth := by omega
    rw [words_of_isWord ⟨hu, h.solid⟩, List.singleton_append, pick?, if_pos h.inside, hdepth]

theorem char (h : InCall d u depth) {c : Char} (hc : isBlank c = false) (hopen : c ≠ '(') (hclose : c ≠ ')') :
    InCall d (u ++ [c]) depth where
  solid := by simpa [or_imp, forall_and, hc] using h.solid
  inside := h.inside.imp_right (List.mem_append_left _)
  opened := by simpa [hopen, hclose] using h.opened

/-- an opening parenthesis, be it the first one -/
theorem opens (hsolid : ∀ c ∈ u, isBlank c = false) (hopened : d + u.count '(' = depth + u.count ')') :
    InCall d (u ++ ['(']) (depth + 1) where
  solid := by simpa [or_imp, forall_and] using ⟨hsolid, by decide⟩
  inside := Or.inr (by simp)
  opened := by simp; omega

theorem closes (h : InCall d u (depth + 1)) : InCall d (u ++ [')']) depth where
  solid := by simpa [or_imp, forall_and] using ⟨h.solid, by decide⟩
  inside := h.inside.imp_right (List.mem_append_left _)
  opened := by
    have := h.opened
    simp
    omega

/-- **Arguments leave as many parentheses open as were open before them**, whatever words they are. -/
theorem arguments {a : Text} (ha : Arguments a) (h : InCall d u (depth + 1)) :
    ∃ d' u', InCall d' u' (depth + 1) ∧
      ∀ t, pick? extra d (words (u ++ (a ++ t))) = pick? extra d' (words (u' ++ t)) := by
  induction ha generalizing d u depth with
  | nil => exact ⟨d, u, h, fun t => rfl⟩
  | @char c a hc _ ih =>
    by_cases hblank : isBlank c = true
    · have hbegun : InCall (depth + 1) [] (depth + 1) := ⟨by simp, Or.inl (by omega), by simp⟩
      obtain ⟨d', u', h', hpick⟩ := ih hbegun
      refine ⟨d', u', h', fun t => ?_⟩
      rw [← hpick, List.cons_append, h.blank extra hblank]
      rfl
    · obtain ⟨d', u', h', hpick⟩ := ih (h.char (by simpa using hblank) (ne_of_class hc (by decide))
        (ne_of_class hc (by decide)))
      refine ⟨d', u', h', fun t => ?_⟩
      rw [← hpick]
      simp
  | group _ _ iha iht =>
    obtain ⟨d₁, u₁, h₁, hpick₁⟩ := iha (opens h.solid h.opened)
    obtain ⟨d₂, u₂, h₂, hpick₂⟩ := iht h₁.closes
    refine ⟨d₂, u₂, h₂, fun t => ?_⟩
    rw [← hpick₂]
    simpa using hpick₁ _

end InCall

/-! ## Reading a value -/

/-- **A part that does not name an animation is passed over.** -/
theorem Filler.skip {w : Text} (h : Filler extra w) {c : Char} (hc : isBlank c = true) (t : Text) :
    pick? extra 0 (words (w ++ c :: t)) = pick? extra 0 (words t) := by
  cases h with
  | number h =>
    have hchars := isNumeral_of_isNumeric h
    have hcall : '(' ∉ w := fun hm => absurd (hchars _ hm) (by decide)
    have hbare : bare w = w := bare_of_class hchars rfl rfl rfl
    rw [words_append_blank w hc, words_of_isWord (isWord_of_isNumeric h), List.singleton_append, pick?,
      if_neg (by simp [hcall])]
    simp [hbare, h]
  | keyword h =>
    rw [words_append_blank w hc, words_of_isWord h.word, List.singleton_append, pick?]
    split
    · have hdepth : 0 + w.count '(' - w.count ')' = 0 := by
        have := h.balanced
        omega
      rw [hdepth]
    · simp [h.whole, isReserved_iff.2 h.reserved]
  | @call f a hf ha =>
    have hcount (p : Char) (hp : isNameChar p = false) : f.count p = 0 :=
      List.count_eq_zero.2 fun hm => ne_of_class (hf p hm) hp rfl
    have hopen : InCall 0 (f ++ ['(']) (0 + 1) :=
      .opens (fun c hc => not_blank_of_nameChar (hf c hc)) (by rw [hcount '(' rfl, hcount ')' rfl])
    obtain ⟨d, u, h, hpick⟩ := hopen.arguments extra ha
    have hcall := hpick (')' :: c :: t)
    have hend := h.closes.blank extra hc t
    simp only [List.append_assoc, List.singleton_append] at hcall hend
    rw [hend] at hcall
    simpa using hcall

/-- what a spelled name is without quotes -/
theorem Spelled.unquoteLoosely {name w : Text} (hname : isName name = true) (h : Spelled name w) :
    unquoteLoosely w = name := by
  cases h with
  | unquoted => exact unquoteLoosely_of_class (isName_iff.1 hname).2 rfl rfl
  | literal hq => exact unquoteLoosely_between hq hq name

theorem Spelled.bare {name w : Text} (hname : isName name = true) (h : Spelled name w) : bare w = name := by
  refine (bare_of_last fun hl => ?_).trans (h.unquoteLoosely hname)
  cases h with
  | unquoted => exact absurd ((isName_iff.1 hname).2 _ (List.mem_of_getLast? hl)) (by decide)
  | @literal q hq =>
    rw [quoted, List.getLast?_concat] at hl
    exact ne_of_class hq (d := ',') rfl (Option.some.inj hl)

/-- a spelled name opens no call -/
theorem Spelled.not_call {name w : Text} (hname : isName name = true) (h : Spelled name w) : '(' ∉ w := by
  have hchars := (isName_iff.1 hname).2
  intro hm
  cases h with
  | unquoted => exact absurd (hchars _ hm) (by decide)
  | @literal q hq =>
    simp only [quoted, List.cons_append, List.mem_cons, List.mem_append, List.not_mem_nil, or_false] at hm
    rcases hm with rfl | hm | rfl
    · cases hq
    · exact absurd (hchars _ hm) (by decide)
    · cases hq

/-- a word that spells a name is chosen -/
theorem pick?_spelled {name w : Text} (hname : IsReference extra name) (h : Spelled name w) (ws : List Text) :
    pick? extra 0 (w :: ws) = some name := by
  have hreserved : isReserved extra name = false := by
    rw [← Bool.not_eq_true, isReserved_iff]
    exact fun ⟨k, hk, he⟩ => hname.notReserved k hk he
  have hvisible : name ≠ [] := (isName_iff.1 hname.isName).1
  rw [pick?, if_neg (by simp [h.not_call hname.isName])]
  simp [h.bare hname.isName, hvisible, hname.notNumeric, hreserved]

/-- the words of a value are those of its first part and those of the rest -/
theorem Spaced.uncons {w t : Text} {ws : List Text} (h : Spaced (w :: ws) t) :
    ws = [] ∧ t = w ∨ ∃ c rest u, isBlank c = true ∧ t = w ++ c :: rest ∧ words rest = words u ∧ Spaced ws u := by
  cases h with
  | one => exact Or.inl ⟨rfl, rfl⟩
  | @cons _ gap u _ hne hgap hu =>
    obtain ⟨c, gap, rfl⟩ := List.exists_cons_of_ne_nil hne
    obtain ⟨hc, hgap⟩ := blank_cons.1 hgap
    exact Or.inr ⟨c, gap ++ u, u, hc, by simp, words_blank_append hgap u, hu⟩

/-- **A value names what one of its parts spells**, if all parts in front of that are fillers. -/
theorem named?_of_spaced {name w t : Text} {before after : List Text} (hname : IsReference extra name)
    (hw : Spelled name w) (hbefore : ∀ x ∈ before, Filler extra x) (ht : Spaced (before ++ w :: after) t) :
    named? extra t = some name := by
  have hword := words_of_isWord (hw.isWord hname.isName)
  unfold named?
  induction before generalizing t with
  | nil =>
    rcases ht.uncons with ⟨-, rfl⟩ | ⟨c, rest, u, hc, rfl, -, -⟩
    · rw [hword]
      exact pick?_spelled hname hw []
    · rw [words_append_blank w hc, hword]
      exact pick?_spelled hname hw _
  | cons x before ih =>
    obtain ⟨hx, hbefore⟩ := List.forall_mem_cons.1 hbefore
    rcases ht.uncons with ⟨hnil, -⟩ | ⟨c, rest, u, hc, rfl, hrest, hu⟩
    · simp at hnil
    · rw [hx.skip hc, hrest]
      exact ih hbefore hu

end Animation

end StyleCheck
