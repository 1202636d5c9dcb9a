/-
Rules inside the bodies of rules.

A body is parsed again to reach the rules inside it, and what that parse finds wrong is not looked at. There is nothing
to look at: a body was closed when it was found, so it is balanced, and trimming it keeps that, be it that the blank
dropped was escaped or ended a literal (`balanced_trim`). A balanced text is read to its end without a fault and without
a stray brace (`scan_of_balanced`), also if it ends in a literal, and the bodies found in it are closed again.
- `nestable_of_mem_parseAt`: the body of every rule can be parsed again, also that of a rule closed before a fault;
- `parseBody_of_reaches`: however deep one goes, parsing a body again finds no fault, no stray brace and no open
  comment.
-/
import StyleCheck.Proofs.Parse.Clean
import StyleCheck.Proofs.Parse.Continuation

namespace StyleCheck

open Quoting Text

namespace Mark

theorem depth?_of_cuts {ms : List Mark} (h : ∀ m ∈ ms, m = .cut) (d : Nat) : depth? d ms = some d := by
  induction ms with
  | nil => rfl
  | cons m ms ih =>
    obtain ⟨rfl, hms⟩ := List.forall_mem_cons.1 h
    exact ih hms

end Mark

/-- blanks make no marks but cuts -/
theorem Quoting.marks_of_blanks (q : Quoting) {g : Text} (hg : Blank g) : ∀ m ∈ q.marks g, m = .cut := by
  induction g generalizing q with
  | nil => simp
  | cons c g ih =>
    obtain ⟨hc, hg⟩ := blank_cons.1 hg
    rw [marks_cons, ofChar?_blank q hc]
    refine List.forall_mem_append.2 ⟨?_, ih (q.next c) hg⟩
    split <;> simp

/-! ## Balanced texts -/

namespace Block

/-- a character whose mark is balanced changes the depth as its mark says, and is reported only if it cuts a literal -/
theorem act_of_depth {s : St} {c : Char} {d : Nat}
    (h : Mark.depth? s.place.depth (Mark.ofChar? s.quoting c).toList = some d) :
    (act s c).place.depth = d ∧ ∀ i ∈ (act s c).issues, i ∈ s.issues ∨ i.kind = .unterminatedString := by
  rw [act_eq]
  cases hm : Mark.ofChar? s.quoting c with
  | none =>
    rw [hm] at h
    exact ⟨(depth_keep s.line c s.place).trans (Option.some.inj h), fun i hi => Or.inl hi⟩
  | some m =>
    rw [hm] at h
    cases m with
    | opens =>
      refine ⟨Eq.trans ?_ (Option.some.inj h), fun i hi => Or.inl hi⟩
      unfold openBrace
      rcases s.place with _ | ⟨l, seen⟩ | ⟨p, l, o, e, seen⟩ <;> rfl
    | closes =>
      simp only [closeBrace]
      rcases hp : s.place with _ | ⟨l, seen⟩ | ⟨p, l, o, _ | e, seen⟩ <;> rw [hp] at h
      · cases h
      · cases h
      · exact ⟨Option.some.inj h, fun i hi => Or.inl hi⟩
      · exact ⟨Option.some.inj h, fun i hi => Or.inl hi⟩
    | ends =>
      have hd : s.place.depth = d := Option.some.inj h
      simp only [semicolon]
      rcases hp : s.place with _ | ⟨l, seen⟩ | ⟨p, l, o, e, seen⟩ <;> simp only [hp] at hd ⊢
      · exact ⟨hd, fun i hi => Or.inl hi⟩
      · exact ⟨hd, fun i hi => Or.inl hi⟩
      · exact ⟨hd, fun i hi => Or.inl hi⟩
    | cut =>
      refine ⟨(depth_keep s.line c s.place).trans (Option.some.inj h), fun i hi => ?_⟩
      rcases List.mem_cons.1 hi with rfl | hi
      · exact Or.inr rfl
      · exact Or.inl hi

/-- **So does a text whose marks are balanced.** -/
theorem run_of_depth {s : St} {t : Text} {d : Nat} (h : Mark.depth? s.place.depth (s.quoting.marks t) = some d) :
    (run s t).place.depth = d ∧ ∀ i ∈ (run s t).issues, i ∈ s.issues ∨ i.kind = .unterminatedString := by
  induction t generalizing s with
  | nil => exact ⟨Option.some.inj h, fun i hi => Or.inl hi⟩
  | cons c t ih =>
    rw [marks_cons, Mark.depth?_append] at h
    obtain ⟨e, he, h⟩ := Option.bind_eq_some_iff.1 h
    obtain ⟨hplace, hissues⟩ := act_of_depth he
    have hdepth : (step s c).place.depth = e := hplace
    obtain ⟨hd, hi⟩ := ih (s := step s c) (hdepth ▸ h)
    refine ⟨hd, fun i hmem => ?_⟩
    rcases hi i hmem with hmem | hk
    · exact hissues i hmem
    · exact Or.inr hk

/-- **A balanced text is read without a fault**, and nothing is reported but cut literals and text behind the last
block. -/
theorem scan_of_balanced {t : Text} (h : Mark.depth? 0 (code.marks t) = some 0) (line : Nat) :
    (scan line t).fault = none ∧
    ∀ i ∈ (scan line t).issues, i.kind = .unterminatedString ∨ i.kind = .trailingContent := by
  obtain ⟨hdepth, hissues⟩ := run_of_depth (s := start line) h
  have hcuts : ∀ i ∈ (run (start line) t).issues.reverse, i.kind = .unterminatedString ∨ i.kind = .trailingContent := by
    intro i hi
    exact Or.inl ((hissues i (List.mem_reverse.1 hi)).resolve_left (by simp [start]))
  unfold scan St.finish
  rcases hp : (run (start line) t).place with _ | ⟨l, seen⟩ | ⟨p, l, o, d, seen⟩ <;> rw [hp] at hdepth
  · exact ⟨rfl, hcuts⟩
  · refine ⟨rfl, fun i hi => ?_⟩
    simp only at hi
    split at hi
    · exact hcuts i hi
    · rcases List.mem_append.1 hi with hi | hi
      · exact hcuts i hi
      · rw [List.mem_singleton.1 hi]
        exact Or.inr rfl
  · cases hdepth

end Block

/-! ## Bodies -/

/-- a text that can be parsed again: it is balanced, and no comment opens in it -/
structure Nestable (b : Text) : Prop where
  balanced : Mark.depth? 0 (code.marks b) = some 0
  uncommented : code.Uncommented b

/-- **Trimming keeps a body balanced.** What it drops makes no marks but cuts, and in front of a body there is code;
that the last blank may have been escaped, or have ended a literal, changes nothing in front of it. -/
theorem balanced_trim {b : Text} (hb : Block.IsBody b) : Mark.depth? 0 (code.marks (trim b)) = some 0 := by
  obtain ⟨lead, tail, ht, hlead, htail⟩ := trim_decompose b
  obtain ⟨hrun, hmarks⟩ := run_code_blank hlead
  have hbalanced := hb.balanced
  rw [ht, List.append_assoc, marks_append, hrun, hmarks, List.nil_append, marks_append, Mark.depth?_append] at hbalanced
  obtain ⟨d, hd, hend⟩ := Option.bind_eq_some_iff.1 hbalanced
  rw [Mark.depth?_of_cuts (marks_of_blanks _ htail)] at hend
  exact hd.trans hend

/-- so a trimmed body can be parsed again -/
theorem nestable_trim {b : Text} (hb : Block.IsBody b) (hu : code.Uncommented b) : Nestable (trim b) :=
  ⟨balanced_trim hb, uncommented_trim hu⟩

namespace Stylesheet

/-- **The body of a rule can be parsed again**, if no comment opens once comments are removed. -/
theorem nestable_of_mem_parseAt {config : ParseConfig} {source : SourceId} {line : Nat} {text : Text} {r : Rule}
    (hu : code.Uncommented (Comment.strip text)) (h : r ∈ (parseAt config source line text).rules) :
    Nestable r.body := by
  obtain ⟨b, -, n, hn, hfound⟩ := found_of_mem_parseAt h
  rw [body_of_toRule? hn]
  exact nestable_trim hfound.body (hfound.uncommented hu).2

/-- the rules of a sheet, those inside their bodies, and so on -/
inductive Reaches (config : ParseConfig) (s : Stylesheet) : Rule → Prop where
  | rule {r : Rule} : r ∈ s.rules → Reaches config s r
  | inner {r r' : Rule} : Reaches config s r → r' ∈ (parseBody config r).rules → Reaches config s r'

/-- a body that can be parsed again gives rules whose bodies can -/
theorem nestable_of_mem_parseBody {config : ParseConfig} {r r' : Rule} (h : Nestable r.body)
    (h' : r' ∈ (parseBody config r).rules) : Nestable r'.body := by
  refine nestable_of_mem_parseAt ?_ h'
  rw [Comment.strip_eq_self_iff.2 h.uncommented]
  exact h.uncommented

/-- parsing such a body within the limit finds nothing wrong with its braces and comments -/
theorem parseBody_of_nestable {config : ParseConfig} {r : Rule} (h : Nestable r.body)
    (hsize : byteSize r.body ≤ config.maxInputSize) :
    (parseBody config r).fault = none ∧
    ∀ i ∈ (parseBody config r).issues, i.kind ≠ .strayCloseBrace ∧ i.kind ≠ .unterminatedComment := by
  obtain ⟨htext, hcomments⟩ := Comment.run_start_uncommented h.uncommented r.bodyLine
  obtain ⟨-, hissues, hfault, -⟩ := parseAt_of_size r.source r.bodyLine hsize
  rw [htext] at hissues hfault
  obtain ⟨hnone, hkinds⟩ := Block.scan_of_balanced h.balanced r.bodyLine
  refine ⟨hfault.trans hnone, fun i hi => ?_⟩
  unfold parseBody at hi
  rw [hissues, hcomments, List.nil_append] at hi
  rcases hkinds i hi with hk | hk <;> simp [hk]

/-- **Parsing a body again finds no fault, no stray brace and no open comment**, however deep the rule was reached and
whatever fault ended the first parse, if removing comments twice is removing them once. So all rules in a body are
found. -/
theorem parseBody_of_reaches {config : ParseConfig} {source : SourceId} {t : Text} {r : Rule}
    (hstrip : Comment.strip (Comment.strip t) = Comment.strip t)
    (h : (parse config source t).Reaches config r) :
    (parseBody config r).fault = none ∧
    ∀ i ∈ (parseBody config r).issues, i.kind ≠ .strayCloseBrace ∧ i.kind ≠ .unterminatedComment := by
  have hr : Nestable r.body ∧ byteSize r.body ≤ config.maxInputSize := by
    induction h with
    | rule h =>
      have hsize := body_size_of_mem_parseAt h
      have hlimit := size_of_mem_parseAt h
      exact ⟨nestable_of_mem_parseAt (Comment.strip_eq_self_iff.1 hstrip) h, by omega⟩
    | inner _ h ih =>
      have hsize := nested_body_lt h
      exact ⟨nestable_of_mem_parseBody ih.1 h, by omega⟩
  exact parseBody_of_nestable hr.1 hr.2

/-- a stray brace and a block left open; inside a group a cut literal, and a rule that ends in an escaped blank -/
def faultyText : Text := "\x7d@media a \x7b .b\x7bc: 'd\n\x7d .e\x7bf: g\\ \x7d/*\n*/\x7d .h\x7b".toList

/-- the group -/
def faultyGroup : Rule where
  selector := "@media a".toList
  body := ".b\x7bc: 'd\n\x7d .e\x7bf: g\\ \x7d".toList
  source := ⟨0⟩
  position := 0
  kind := .media
  line := 1
  bodyLine := 1

/-- the rule inside it whose last blank is escaped -/
def faultyRule : Rule where
  selector := ".e".toList
  body := "f: g\\".toList
  source := ⟨0⟩
  position := 1
  kind := .plain
  line := 2
  bodyLine := 2

theorem parseBody_of_reaches_faulty :
    Comment.strip (Comment.strip faultyText) = Comment.strip faultyText ∧
    (parse {} ⟨0⟩ faultyText).isPartial = true ∧
    (parse {} ⟨0⟩ faultyText).Reaches {} faultyRule ∧
    (parseBody {} faultyRule).fault = none ∧
    ∀ i ∈ (parseBody {} faultyRule).issues, i.kind ≠ .strayCloseBrace ∧ i.kind ≠ .unterminatedComment := by
  have hstrip : Comment.strip (Comment.strip faultyText) = Comment.strip faultyText := by decide +kernel
  have hgroup : faultyGroup ∈ (parse {} ⟨0⟩ faultyText).rules := by decide +kernel
  have hrule : faultyRule ∈ (parseBody {} faultyGroup).rules := by decide +kernel
  have hreaches : (parse {} ⟨0⟩ faultyText).Reaches {} faultyRule := .inner (.rule hgroup) hrule
  exact ⟨hstrip, by decide +kernel, hreaches, parseBody_of_reaches hstrip hreaches⟩

end Stylesheet

end StyleCheck
