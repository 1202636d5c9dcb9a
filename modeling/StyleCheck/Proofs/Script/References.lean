/-
How far custom properties are read in scripts.

A script may compute a name: behind the name characters the identifier goes on with an interpolation, an escape or a
character beyond ASCII. The pattern for `var(..)` looks at nothing behind the name characters and records these alone,
whatever follows; the pattern for calls asks for a quote behind them, where an identifier ends.
- `token_append`, `token_eq_nil_iff`: where the identifier that a text begins with ends;
- `reads_of_head?_ways`: what a reference reads;
- `references_exact`: every reference records one custom property, and it is the whole identifier exactly if nothing
  goes on behind its name characters;
- `whole_of_called`: a custom property in a call is always recorded whole.
-/
import StyleCheck.Proofs.Script.Recording

namespace StyleCheck.Script

open Text

/-! ## Identifiers -/

/-- the identifier that a text begins with: identifier characters, escapes and interpolations; the first `}` closes an
interpolation, which may be open already -/
def tokenFrom : Bool → Text → Text
  | _, [] => []
  | true, c :: t => c :: tokenFrom (c ≠ '}') t
  | false, '\\' :: c :: t => '\\' :: c :: tokenFrom false t
  | false, '$' :: '{' :: t => '$' :: '{' :: tokenFrom true t
  | false, c :: t => if isIdentChar c then c :: tokenFrom false t else []

/-- the identifier that a text begins with, computed parts included -/
def token (t : Text) : Text := tokenFrom false t

/-- whether an identifier goes on with `t` -/
def goesOn : Text → Bool
  | '\\' :: _ :: _ => true
  | '$' :: '{' :: _ => true
  | c :: _ => isIdentChar c
  | [] => false

theorem token_cons {c : Char} (hc : isIdentChar c = true) (t : Text) : token (c :: t) = c :: token t := by
  unfold token
  rw [tokenFrom.eq_def]
  split
  · rename_i h
    cases h
  · rename_i h _
    cases h
  · rename_i h
    cases h
    cases hc
  · rename_i h
    cases h
    cases hc
  · rename_i h
    cases h
    exact if_pos hc

theorem token_append {name : Text} (h : ∀ c ∈ name, isIdentChar c = true) (t : Text) :
    token (name ++ t) = name ++ token t := by
  induction name with
  | nil => rfl
  | cons c name ih =>
    obtain ⟨hc, hname⟩ := List.forall_mem_cons.1 h
    rw [List.cons_append, token_cons hc, ih hname]
    rfl

theorem token_eq_nil_iff (t : Text) : token t = [] ↔ goesOn t = false := by
  unfold token
  fun_cases goesOn t with
  | case1 c t => simp [tokenFrom]
  | case2 t => simp [tokenFrom]
  | case3 c t => simp [tokenFrom]
  | case4 => simp [tokenFrom]

/-- two dashes and name characters are the whole identifier exactly if nothing goes on behind them -/
theorem token_property {name : Text} (hname : isName name = true) (after : Text) :
    token ('-' :: '-' :: name ++ after) = '-' :: '-' :: name ↔ goesOn after = false := by
  have hident : ∀ c ∈ '-' :: '-' :: name, isIdentChar c = true := by
    intro c hc
    rw [isIdentChar, (isName_iff.1 (isName_dashes hname)).2 c hc, Bool.true_or]
  rw [token_append hident, List.append_right_eq_self, token_eq_nil_iff]

/-! ## References -/

/-- the pattern of references to custom properties -/
def reference : Entry := ⟨"var-reference".toList, [.literal "var(".toList, .blanks, .property], .property⟩

/-- what a reference reads of a text: blanks, two dashes and all name characters behind them -/
structure Match.Refers (m : Match) (t blanks name : Text) : Prop where
  text : t = m.start.before ++ ("var(".toList ++ (blanks ++ ('-' :: '-' :: name ++ m.stop.after)))
  blank : ∀ c ∈ blanks, isBlank c = true
  named : isName name = true
  stops : m.stop.after.head?.all (!isNameChar ·) = true
  groups : m.groups = [⟨m.start.before ++ "var(".toList ++ blanks, '-' :: '-' :: name⟩]

/-- **A reference reads all name characters behind its dashes.** -/
theorem reads_of_head?_ways {m : Match} (h : (ways reference.pieces m.start).head? = some (m.groups, m.stop)) {t : Text}
    (ht : t = m.start.before ++ m.start.after) : ∃ blanks name, m.Refers t blanks name := by
  have hdetermined : Determined reference.pieces := (determined_catalog (by decide)).1
  obtain ⟨hliteral, hblanks, hproperty, -⟩ := hdetermined
  obtain ⟨var, afterVar, more, hvar, hbehindVar, hgroups⟩ := head?_ways_eq_some hliteral h
  obtain ⟨blanks, afterBlanks, more', hblank, hbehindBlanks, hmore⟩ := head?_ways_eq_some hblanks hbehindVar
  obtain ⟨read, after, more'', hread, hend, hmore'⟩ := head?_ways_eq_some hproperty hbehindBlanks
  obtain ⟨hnone, hstop⟩ := Prod.mk.inj (Option.some.inj hend)
  obtain ⟨hvar, htext⟩ := mem_anyOf (List.mem_of_head? hvar)
  obtain ⟨hrest, hall⟩ := mem_runs (List.mem_of_head? hblank)
  obtain ⟨name, rfl, hproperty, hname, hnext⟩ := of_head?_dashed hread
  cases List.mem_singleton.1 hvar
  have hafter : m.stop.after = after := by rw [← hstop]
  simp only at hrest hproperty
  refine ⟨blanks, name, ?_, hall, hname, ?_, ?_⟩
  · rw [ht, htext, hrest, hproperty, hafter]
  · rw [hafter]
    exact hnext
  · rw [hgroups, hmore, hmore', ← hnone]
    rfl

/-- **A reference is recorded by its name characters.** Every match of the pattern records one custom property, which
is the whole identifier exactly if nothing goes on behind its name characters: neither an escape nor an interpolation
nor a character beyond ASCII. -/
theorem references_exact (source : SourceId) (t : Text) :
    ∃ found : List Match, (∀ ms, Finds reference.pieces ⟨[], t⟩ ms ↔ ms = found) ∧
      List.Forall₂ (fun m o => ∃ blanks name, m.Refers t blanks name ∧
          o = ⟨.property, '-' :: '-' :: name, source, newlines (m.start.before ++ "var(".toList ++ blanks) + 1,
            reference.name⟩ ∧
          (token (o.name ++ m.stop.after) = o.name ↔ goesOn m.stop.after = false))
        found ((scan source t).occurrences.filter (·.context = reference.name)) := by
  obtain ⟨found, hfound, hrecorded⟩ := exists_recorded (e := reference) (by decide) source t
  refine ⟨found, hfound, ?_⟩
  rw [hrecorded]
  have hfinds : Finds reference.pieces ⟨[], t⟩ found := (hfound _).2 rfl
  have hrefers : ∀ m ∈ found, ∃ blanks name, m.Refers t blanks name := by
    intro m hm
    obtain ⟨hpreferred, -, htext⟩ := hfinds.preferred hm
    exact reads_of_head?_ways hpreferred htext.symm
  clear hfound hrecorded hfinds
  induction found with
  | nil => exact .nil
  | cons m found ih =>
    obtain ⟨⟨blanks, name, h⟩, hmore⟩ := List.forall_mem_cons.1 hrefers
    rw [List.flatMap_cons, recorded_property rfl h.groups rfl h.named]
    exact .cons ⟨blanks, name, h, rfl, token_property h.named _⟩ (ih hmore)

/-- the identifier of a reference may be computed, and part of it is recorded all the same -/
theorem reference_truncated :
    (scan ⟨0⟩ "`var(--size-$\x7bn\x7d)`".toList).occurrences =
      [⟨.property, "--size-".toList, ⟨0⟩, 1, "var-reference".toList⟩] ∧
    "`var(--size-$\x7bn\x7d)`".toList = "`var(".toList ++ "--size-".toList ++ "$\x7bn\x7d)`".toList ∧
    token "--size-$\x7bn\x7d)`".toList = "--size-$\x7bn\x7d".toList := by
  decide +kernel

/-! ## Calls -/

/-- a call up to its argument -/
def callOpening : List Piece :=
  [.wordStart, .choice ["setProperty".toList, "getPropertyValue".toList, "removeProperty".toList]] ++
    called [.oneOf quotes]

/-- the pattern of calls that name a custom property -/
def call : Entry := ⟨"property-call".toList, callOpening ++ [.property, .oneOf quotes], .property⟩

/-- a custom property in a call stands between quotes -/
theorem quoted_of_mem_ways {m : Match} (h : (m.groups, m.stop) ∈ ways call.pieces m.start) {t : Text}
    (ht : m.start.before ++ m.start.after = t) :
    ∃ before name quote after, t = before ++ ('-' :: '-' :: name ++ quote :: after) ∧ isName name = true ∧
      quote ∈ quotes ∧ m.groups = [⟨before, '-' :: '-' :: name⟩] := by
  obtain ⟨first, mid, more, hfirst, hmore, hgroups⟩ := mem_ways_append h
  have hnone : first = [] := List.forall₂_nil_left_iff.1 (captures_of_mem_ways hfirst)
  obtain ⟨⟨opening, hbefore, hafter, -⟩, -⟩ := ways_spec hfirst
  obtain ⟨⟨read, rest⟩, hread, hmore⟩ := List.mem_flatMap.1 hmore
  obtain ⟨⟨others, e⟩, hend, heq⟩ := List.mem_map.1 hmore
  obtain ⟨rfl, -⟩ := Prod.mk.inj heq
  obtain ⟨name, rfl, hproperty, hname⟩ := mem_dashed hread
  obtain ⟨⟨closing, after⟩, hquote, hend⟩ := List.mem_flatMap.1 hend
  obtain ⟨⟨nothing, e'⟩, hnothing, heq⟩ := List.mem_map.1 hend
  obtain ⟨rfl, -⟩ := Prod.mk.inj heq
  obtain ⟨rfl, -⟩ := Prod.mk.inj (List.mem_singleton.1 hnothing)
  obtain ⟨quote, rfl, hrest, hq⟩ := mem_one hquote
  refine ⟨mid.before, name, quote, after, ?_, hname, of_decide_eq_true hq, ?_⟩
  · simp only at hrest
    rw [← ht, hbefore, hafter, hproperty, hrest, List.append_assoc]
  · rw [hgroups, hnone]
    rfl

/-- **A custom property in a call is the whole identifier**: a quote follows it. -/
theorem whole_of_called (source : SourceId) (t : Text) :
    ∀ o ∈ (scan source t).occurrences, o.context = call.name →
      ∃ before after, t = before ++ (o.name ++ after) ∧ o.line = newlines before + 1 ∧
        token (o.name ++ after) = o.name := by
  intro o ho hcontext
  obtain ⟨found, hfound, hrecorded⟩ := exists_recorded (e := call) (by decide) source t
  have hmem : o ∈ found.flatMap (call.recorded source) := by
    rw [← hrecorded]
    exact List.mem_filter.2 ⟨ho, decide_eq_true hcontext⟩
  obtain ⟨m, hm, ho⟩ := List.mem_flatMap.1 hmem
  obtain ⟨hpreferred, -, htext⟩ := ((hfound _).2 rfl).preferred hm
  obtain ⟨before, name, quote, after, ht, hname, hquote, hgroups⟩ :=
    quoted_of_mem_ways (List.mem_of_head? hpreferred) htext
  rw [recorded_property rfl hgroups rfl hname] at ho
  cases List.mem_singleton.1 ho
  have hcases : quote = '"' ∨ quote = '\'' ∨ quote = '\x60' := by simpa [quotes] using hquote
  refine ⟨before, quote :: after, ht, rfl, (token_property hname _).2 ?_⟩
  rcases hcases with rfl | rfl | rfl <;> rfl

end StyleCheck.Script
