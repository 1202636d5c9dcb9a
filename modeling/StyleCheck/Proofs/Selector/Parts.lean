/-
The names in a selector that is written part by part.

A selector is a sequence of parts (`Part`): classes, ids, attribute brackets, strings, and other text. What stands
inside a bracket or a string is passed over, whatever it is, as long as the bracket or string ends where the part ends.
So the names that are found are those of the classes and ids, each whole, if no identifier goes on behind one of them.
- `foldl_enclosed`, `foldl_quotable`: the insides of brackets and strings are left where they end;
- `foldl_silent`: a part that is no class and no id finds nothing and leads nowhere;
- `finish_named`: a class or an id finds its name;
- `names_texts`: the names of a selector are those of its parts, and a list of two selectors has the names of both.
-/
import StyleCheck.Proofs.Bytes.Names

namespace StyleCheck.Selector

open Text Names

/-- a part of a selector -/
inductive Part where
  /-- a dot and a name -/
  | className (name : Text)
  /-- a hash and a name -/
  | id (name : Text)
  /-- brackets around `content` -/
  | bracketed (content : Text)
  /-- a string -/
  | quoted (quote : Char) (content : Text)
  /-- tags, combinators, pseudo-classes, blanks and whatever else -/
  | other (content : Text)
  deriving DecidableEq, Repr

/-- whether a text can stand between two quotes `q`: a backslash hides each `q` in it, and none hides what is behind -/
def isQuotable (q : Char) : Text → Bool
  | [] => true
  | ['\\'] => false
  | '\\' :: _ :: t => isQuotable q t
  | c :: t => c != q && isQuotable q t

/-- whether a text that is read inside the string that `quote` opened, if any, leads out of strings and escapes, and
each closing bracket on the way is hidden by a backslash or stands inside a string -/
def isEnclosed : Option Char → Text → Bool
  | quote, [] => quote.isNone
  | _, ['\\'] => false
  | quote, '\\' :: _ :: t => isEnclosed quote t
  | some q, c :: t => isEnclosed (if c = q then none else some q) t
  | none, c :: t => c != ']' && isEnclosed (if isQuote c then some c else none) t

/-- whether a character begins no part but other text, and hides nothing -/
def isInert (c : Char) : Bool := !(isQuote c || c == '\\' || c == '[' || c == '.' || c == '#')

namespace Part

def text : Part → Text
  | .className n => '.' :: n
  | .id n => '#' :: n
  | .bracketed t => '[' :: t ++ [']']
  | .quoted q t => q :: t ++ [q]
  | .other t => t

/-- the name that a class or an id has -/
def name? : Part → Option (Category × Text)
  | .className n => some (.className, n)
  | .id n => some (.id, n)
  | _ => none

/-- names are identifiers, brackets and strings are closed, and other text begins no part of another kind -/
def WellFormed : Part → Prop
  | .className n => n.all isIdentChar = true ∧ isIdentifier n = true
  | .id n => n.all isIdentChar = true ∧ isIdentifier n = true
  | .bracketed t => isEnclosed none t = true
  | .quoted q t => isQuote q = true ∧ isQuotable q t = true
  | .other t => t.all isInert = true

instance : (p : Part) → Decidable p.WellFormed
  | .className n => inferInstanceAs (Decidable (n.all isIdentChar = true ∧ isIdentifier n = true))
  | .id n => inferInstanceAs (Decidable (n.all isIdentChar = true ∧ isIdentifier n = true))
  | .bracketed t => inferInstanceAs (Decidable (isEnclosed none t = true))
  | .quoted q t => inferInstanceAs (Decidable (isQuote q = true ∧ isQuotable q t = true))
  | .other t => inferInstanceAs (Decidable (t.all isInert = true))

/-- parts one behind the other -/
def texts (parts : List Part) : Text := parts.flatMap text

/-- no identifier goes on behind a class or an id; parts may be empty, so this is asked of all that is behind it -/
def Apart : List Part → Prop
  | [] => True
  | p :: parts => (p.name? ≠ none → (texts parts).head?.any isIdentChar = false) ∧ Apart parts

instance decidableApart : (parts : List Part) → Decidable (Apart parts)
  | [] => isTrue trivial
  | p :: parts =>
    have := decidableApart parts
    inferInstanceAs (Decidable ((p.name? ≠ none → (texts parts).head?.any isIdentChar = false) ∧ Apart parts))

theorem texts_cons (p : Part) (parts : List Part) : texts (p :: parts) = p.text ++ texts parts := List.flatMap_cons

theorem texts_append (a b : List Part) : texts (a ++ b) = texts a ++ texts b := List.flatMap_append

end Part

/-! ## Strings and brackets -/

theorem isQuotable_char {q c : Char} (hc : c ≠ '\\') (t : Text) :
    isQuotable q (c :: t) = true ↔ c ≠ q ∧ isQuotable q t = true := by
  rw [isQuotable, Bool.and_eq_true, bne_iff_ne]
  · exact fun h _ => hc h
  · exact fun _ _ h _ => hc h

theorem isEnclosed_quoted {c : Char} (hc : c ≠ '\\') (q : Char) (t : Text) :
    isEnclosed (some q) (c :: t) = isEnclosed (if c = q then none else some q) t := by
  rw [isEnclosed]
  · exact fun h _ => hc h
  · exact fun _ _ h _ => hc h

theorem isEnclosed_bare {c : Char} (hc : c ≠ '\\') (t : Text) :
    isEnclosed none (c :: t) = true ↔ c ≠ ']' ∧ isEnclosed (if isQuote c then some c else none) t = true := by
  rw [isEnclosed, Bool.and_eq_true, bne_iff_ne]
  · exact fun h _ => hc h
  · exact fun _ _ h _ => hc h

/-- **The inside of a string is left at the quote behind it.** -/
theorem foldl_quotable {q : Char} (hq : q ≠ '\\') {t : Text} (h : isQuotable q t = true) (bracket : Bool)
    (found : List (Category × Text)) :
    (t ++ [q]).foldl step ⟨.quoted bracket q, found⟩ = ⟨around bracket, found⟩ := by
  induction t using escape_induction with
  | nil => simp [step, hq]
  | lone => cases h
  | escape c t ih => exact ih h
  | char c t hc ih =>
    obtain ⟨hne, ht⟩ := (isQuotable_char hc t).1 h
    have hstep : step ⟨.quoted bracket q, found⟩ c = ⟨.quoted bracket q, found⟩ := by simp [step, hc, hne]
    rw [List.cons_append, List.foldl_cons, hstep, ih ht]

/-- where a reader is inside brackets, be it in a string or not -/
def Names.Place.enclosed : Option Char → Place
  | some q => .quoted true q
  | none => .attribute

/-- **The inside of brackets is left at the bracket behind it.** -/
theorem foldl_enclosed {quote : Option Char} {t : Text} (h : isEnclosed quote t = true)
    (found : List (Category × Text)) :
    (t ++ [']']).foldl step ⟨Place.enclosed quote, found⟩ = ⟨.outside, found⟩ := by
  induction t using escape_induction generalizing quote with
  | nil =>
    obtain rfl : quote = none := by simpa [isEnclosed] using h
    rfl
  | lone => cases h
  | escape c t ih =>
    have hread : ['\\', c].foldl step ⟨Place.enclosed quote, found⟩ = ⟨Place.enclosed quote, found⟩ := by
      cases quote <;> rfl
    rw [← ih h]
    exact congrArg ((t ++ [']']).foldl step) hread
  | char c t hc ih =>
    rw [List.cons_append, List.foldl_cons]
    cases quote with
    | some q =>
      rw [isEnclosed_quoted hc] at h
      have hstep : step ⟨Place.enclosed (some q), found⟩ c =
          ⟨Place.enclosed (if c = q then none else some q), found⟩ := by
        by_cases hend : c = q
        · subst hend
          simp [step, Place.enclosed, around, hc]
        · simp [step, Place.enclosed, hc, hend]
      rw [hstep]
      exact ih h
    | none =>
      obtain ⟨hbracket, ht⟩ := (isEnclosed_bare hc t).1 h
      have hstep : step ⟨Place.enclosed none, found⟩ c =
          ⟨Place.enclosed (if isQuote c then some c else none), found⟩ := by
        cases hquote : isQuote c <;> simp [step, Place.enclosed, hc, hquote, hbracket]
      rw [hstep]
      exact ih ht

/-! ## Parts -/

theorem ne_backslash_of_quote {q : Char} (hq : isQuote q = true) : q ≠ '\\' := ne_of_class hq (by decide)

theorem enter_of_inert {c : Char} (h : isInert c = true) : enter c = .outside := by
  simp only [isInert, Bool.not_eq_true', Bool.or_eq_false_iff, beq_eq_false_iff_ne] at h
  obtain ⟨⟨⟨⟨hquote, hescape⟩, hbracket⟩, hdot⟩, hhash⟩ := h
  simp [enter, hescape, hquote, hbracket, hdot, hhash]

/-- **A part that is no class and no id** finds nothing and leads nowhere. -/
theorem foldl_silent {p : Part} (h : p.WellFormed) (hname : p.name? = none) (found : List (Category × Text)) :
    p.text.foldl step ⟨.outside, found⟩ = ⟨.outside, found⟩ := by
  cases p with
  | className n => cases hname
  | id n => cases hname
  | bracketed t =>
    have henclosed : isEnclosed none t = true := h
    exact foldl_enclosed henclosed found
  | quoted q t =>
    obtain ⟨hquote, ht⟩ := h
    have hq := ne_backslash_of_quote hquote
    have hopen : step ⟨.outside, found⟩ q = ⟨.quoted false q, found⟩ := by simp [step, enter, hq, hquote]
    show (q :: (t ++ [q])).foldl step ⟨.outside, found⟩ = _
    rw [List.foldl_cons, hopen, foldl_quotable hq ht]
    rfl
  | other t =>
    have hall : t.all isInert = true := h
    clear h
    show t.foldl step ⟨.outside, found⟩ = ⟨.outside, found⟩
    induction t with
    | nil => rfl
    | cons c t ih =>
      obtain ⟨hc, ht⟩ := Bool.and_eq_true_iff.1 hall
      have hstep : step ⟨.outside, found⟩ c = ⟨.outside, found⟩ := by
        rw [step, enter_of_inert hc]
      rw [List.foldl_cons, hstep, ih rfl ht]

/-- **A name is found** behind its dot or hash, if no identifier goes on behind it. -/
theorem finish_named {c : Char} {k : Category} (hc : enter c = .name k []) {n rest : Text}
    (hn : n.all isIdentChar = true ∧ isIdentifier n = true) (hrest : rest.head?.any isIdentChar = false)
    (found : List (Category × Text)) :
    ((c :: n ++ rest).foldl step ⟨.outside, found⟩).finish =
      (rest.foldl step ⟨.outside, (k, n) :: found⟩).finish := by
  obtain ⟨hident, hname⟩ := hn
  have hstep : step ⟨.outside, found⟩ c = ⟨.name k [], found⟩ := by simp [step, hc]
  have hall : ∀ d ∈ n, isIdentChar d = true := List.all_eq_true.1 hident
  have hfirst : ∀ d, rest.head? = some d → isIdentChar d = false := fun d hd => by simpa [hd] using hrest
  have hclose : close k n.reverse found = (k, n) :: found := by simp [close, hname]
  rw [List.cons_append, List.foldl_cons, hstep, List.foldl_append, Bytewise.Names.foldl_name hall, List.append_nil,
    Bytewise.Names.finish_name hfirst, hclose]

/-- **The names found in parts are the names of the parts**, behind those that were found before. -/
theorem finish_texts {parts : List Part} (h : ∀ p ∈ parts, p.WellFormed) (hapart : Part.Apart parts)
    (found : List (Category × Text)) :
    ((Part.texts parts).foldl step ⟨.outside, found⟩).finish = found.reverse ++ parts.filterMap Part.name? := by
  induction parts generalizing found with
  | nil => exact (List.append_nil _).symm
  | cons p parts ih =>
    obtain ⟨hp, hparts⟩ := List.forall_mem_cons.1 h
    obtain ⟨hbehind, hapart⟩ := hapart
    have hread := ih hparts hapart
    rw [Part.texts_cons]
    cases hname : p.name? with
    | none => rw [List.foldl_append, foldl_silent hp hname, hread, List.filterMap_cons_none hname]
    | some name =>
      have hrest := hbehind (by simp [hname])
      rw [List.filterMap_cons_some hname]
      cases p with
      | className n =>
        cases hname
        refine (finish_named rfl hp hrest found).trans ?_
        rw [hread]
        simp
      | id n =>
        cases hname
        refine (finish_named rfl hp hrest found).trans ?_
        rw [hread]
        simp
      | _ => cases hname

/-! ## Lists of selectors -/

/-- a comma and a space keep two sequences of parts apart -/
theorem apart_append {ps qs : List Part} (hps : Part.Apart ps) (hqs : Part.Apart qs) :
    Part.Apart (ps ++ .other [',', ' '] :: qs) := by
  induction ps with
  | nil => exact ⟨fun h => absurd rfl h, hqs⟩
  | cons p ps ih =>
    obtain ⟨hbehind, hps⟩ := hps
    refine ⟨fun hname => ?_, ih hps⟩
    show (Part.texts (ps ++ .other [',', ' '] :: qs)).head?.any isIdentChar = false
    rw [Part.texts_append, Part.texts_cons]
    have hfirst := hbehind hname
    cases htexts : Part.texts ps with
    | nil =>
      have hcomma : isIdentChar ',' = false := by decide
      exact hcomma
    | cons d t =>
      rw [htexts] at hfirst
      exact hfirst

/-- **The names in a selector are those of its classes and ids**, in order and whole, whatever its brackets and strings
hold, if no identifier goes on behind one of them. And the names in a list of two such selectors are those of the first
followed by those of the second. -/
theorem names_texts {ps qs : List Part} (hps : ∀ p ∈ ps, p.WellFormed) (hqs : ∀ p ∈ qs, p.WellFormed)
    (haps : Part.Apart ps) (haqs : Part.Apart qs) :
    names (Part.texts ps) = ps.filterMap Part.name? ∧
    names (Part.texts ps ++ [',', ' '] ++ Part.texts qs) = names (Part.texts ps) ++ names (Part.texts qs) := by
  have hfirst : names (Part.texts ps) = ps.filterMap Part.name? := finish_texts hps haps []
  have hsecond : names (Part.texts qs) = qs.filterMap Part.name? := finish_texts hqs haqs []
  refine ⟨hfirst, ?_⟩
  have hcomma : (Part.other [',', ' ']).WellFormed := by decide
  have hall : ∀ p ∈ ps ++ .other [',', ' '] :: qs, p.WellFormed :=
    List.forall_mem_append.2 ⟨hps, List.forall_mem_cons.2 ⟨hcomma, hqs⟩⟩
  have hlist : Part.texts ps ++ [',', ' '] ++ Part.texts qs = Part.texts (ps ++ .other [',', ' '] :: qs) := by
    rw [Part.texts_append, Part.texts_cons, List.append_assoc]
    rfl
  calc names (Part.texts ps ++ [',', ' '] ++ Part.texts qs)
      = names (Part.texts (ps ++ .other [',', ' '] :: qs)) := congrArg names hlist
    _ = (ps ++ .other [',', ' '] :: qs).filterMap Part.name? := finish_texts hall (apart_append haps haqs) []
    _ = ps.filterMap Part.name? ++ qs.filterMap Part.name? := by
      rw [List.filterMap_append, List.filterMap_cons_none rfl]
    _ = names (Part.texts ps) ++ names (Part.texts qs) := by rw [hfirst, hsecond]

/-- a class in front of brackets with hidden and quoted brackets, dots and quotes, an id, a string and an opened call -/
def guardedParts : List Part :=
  [.other ['a'], .className "-b".toList, .bracketed "c=\".d]'\\\"\" e='.f[' \\]#g\\é".toList, .id "é1".toList,
    .quoted '\'' "#h\".i\\'".toList, .other "j:not(".toList]

/-- two classes with nothing between them, an empty part, and an id -/
def adjoiningParts : List Part := [.className ['k'], .className "_l".toList, .other [], .id ['m'], .other [')']]

theorem names_texts_guarded :
    (∀ p ∈ guardedParts, p.WellFormed) ∧ (∀ p ∈ adjoiningParts, p.WellFormed) ∧
    Part.Apart guardedParts ∧ Part.Apart adjoiningParts ∧
    names (Part.texts guardedParts) = [(.className, "-b".toList), (.id, "é1".toList)] ∧
    names (Part.texts guardedParts ++ [',', ' '] ++ Part.texts adjoiningParts) =
      [(.className, "-b".toList), (.id, "é1".toList)] ++ names (Part.texts adjoiningParts) := by
  have hguarded : ∀ p ∈ guardedParts, p.WellFormed := by decide
  have hadjoining : ∀ p ∈ adjoiningParts, p.WellFormed := by decide
  have hapart : Part.Apart guardedParts ∧ Part.Apart adjoiningParts := by decide
  obtain ⟨hnames, hlist⟩ := names_texts hguarded hadjoining hapart.1 hapart.2
  have hfound : guardedParts.filterMap Part.name? = [(.className, "-b".toList), (.id, "é1".toList)] := by decide
  rw [hfound] at hnames
  rw [hnames] at hlist
  exact ⟨hguarded, hadjoining, hapart.1, hapart.2, hnames, hlist⟩

end StyleCheck.Selector
