/-
The string literals of rendered rules.

`literals` lists the string literals of a text as the scanner reads them. Rendering trims and indents the lines of a
body and leaves blank ones out. Where no literal is cut and none goes on behind a line feed (`Text.Whole`), a line
begins in code and ends outside literals, so all of this happens outside literals.
- `literals_between`, `literals_intercalate`: literals are found part by part if the parts end outside literals;
- `closed_lines`, `literals_bodyLines`: so a body has the literals of its lines, trimmed or not;
- `literals_toCss`, `literals_merge`: rendered rules, and rendered merges, have the literals of their selectors and
  bodies, in this order.
-/
import StyleCheck.Proofs.Parse.Clean

namespace StyleCheck

open Quoting Text

/-! ## Literals -/

/-- the literals of a text read from `q`, with their quotes; `seen` is what has been read of the literal we are in, last
character first. A line feed that cuts a literal is no part of it. -/
def literalsFrom : Quoting → Text → Text → List Text
  | q, seen, [] => if q.quote.isSome then [seen.reverse] else []
  | q, seen, c :: t =>
    match q.quote, (q.next c).quote with
    | none, none => literalsFrom (q.next c) [] t
    | none, some _ => literalsFrom (q.next c) [c] t
    | some _, some _ => literalsFrom (q.next c) (c :: seen) t
    | some _, none => (if c = '\n' then seen else c :: seen).reverse :: literalsFrom (q.next c) [] t

def literals (t : Text) : List Text := literalsFrom code [] t

theorem literalsFrom_cons (q : Quoting) (seen : Text) (c : Char) (t : Text) :
    literalsFrom q seen (c :: t) = match q.quote, (q.next c).quote with
      | none, none => literalsFrom (q.next c) [] t
      | none, some _ => literalsFrom (q.next c) [c] t
      | some _, some _ => literalsFrom (q.next c) (c :: seen) t
      | some _, none => (if c = '\n' then seen else c :: seen).reverse :: literalsFrom (q.next c) [] t := rfl

/-- outside literals, nothing has been read of one -/
theorem literalsFrom_of_closed {q : Quoting} (hq : q.quote = none) (seen t : Text) :
    literalsFrom q seen t = literalsFrom q [] t := by
  cases t with
  | nil => simp [literalsFrom, hq]
  | cons c t =>
    rw [literalsFrom_cons, literalsFrom_cons, hq]
    cases (q.next c).quote <;> rfl

/-- **The literals of two texts** are those of the first, if it ends outside literals, and those of the second. -/
theorem literalsFrom_append {q : Quoting} {a : Text} (h : (q.run a).quote = none) (seen b : Text) :
    literalsFrom q seen (a ++ b) = literalsFrom q seen a ++ literalsFrom (q.run a) [] b := by
  induction a generalizing q seen with
  | nil =>
    have hq : q.quote = none := h
    have hnone : literalsFrom q seen [] = [] := by simp [literalsFrom, hq]
    rw [hnone]
    exact literalsFrom_of_closed hq seen b
  | cons c a ih =>
    rw [List.cons_append, run_cons, literalsFrom_cons q seen c (a ++ b), literalsFrom_cons q seen c a]
    split
    · exact ih h _
    · exact ih h _
    · exact ih h _
    · rw [ih h _]
      rfl

theorem literalsFrom_blank {q : Quoting} (hq : q.quote = none) {g : Text} (hg : Blank g) :
    literalsFrom q [] g = [] := by
  induction g generalizing q with
  | nil => simp [literalsFrom, hq]
  | cons c g ih =>
    obtain ⟨hc, hg⟩ := blank_cons.1 hg
    have hnext : q.next c = code := (run_blank_of_closed hq (blank_cons.2 ⟨hc, blank_nil⟩) (by simp)).1
    rw [literalsFrom_cons, hnext, hq]
    exact ih rfl hg

theorem literals_append {a : Text} (h : code.run a = code) (b : Text) :
    literals (a ++ b) = literals a ++ literals b := by
  unfold literals
  rw [literalsFrom_append (by rw [h]; rfl), h]

theorem literals_blank_append {g : Text} (hg : Blank g) (b : Text) : literals (g ++ b) = literals b := by
  rw [literals_append (run_code_blank hg).1]
  exact congrArg (· ++ _) (literalsFrom_blank rfl hg)

/-- **Blanks between two texts part their literals**, if the first ends outside literals. -/
theorem literals_between {a g : Text} (h : (code.run a).quote = none) (hg : Blank g) (hne : g ≠ []) (b : Text) :
    literals (a ++ g ++ b) = literals a ++ literals b ∧ code.run (a ++ g) = code := by
  have hrun := (run_blank_of_closed h hg hne).1
  unfold literals
  refine ⟨?_, by rw [run_append, hrun]⟩
  rw [List.append_assoc, literalsFrom_append h, literalsFrom_append (by rw [hrun]; rfl), hrun, literalsFrom_blank h hg]
  rfl

theorem literals_intercalate {ts : List Text} (h : ∀ t ∈ ts, (code.run t).quote = none) :
    literals (['\n'].intercalate ts) = ts.flatMap literals := by
  induction ts with
  | nil => rfl
  | cons t ts ih =>
    obtain ⟨ht, hts⟩ := List.forall_mem_cons.1 h
    cases ts with
    | nil => simp
    | cons t' ts =>
      rw [List.intercalate_cons_cons, (literals_between ht (by decide) (by simp) _).1, ih hts]
      rfl

/-! ## The lines of a body -/

/-- a text that ends outside literals and has each of them on one line -/
structure Text.Whole (t : Text) : Prop where
  closed : (code.run t).quote = none
  uncut : .cut ∉ code.marks t
  uncontinued : code.Uncontinued t

theorem literals_trim {l : Text} (hl : '\n' ∉ l) (h : (code.run l).quote = none) :
    literals (trim l) = literals l ∧ (code.run (trim l)).quote = none := by
  obtain ⟨lead, tail, ht, hlead, htail⟩ := trim_decompose l
  have hcut : '\n' ∉ tail := fun hn => hl (by rw [ht]; simp [hn])
  have hrun : code.run l = (code.run (trim l)).run tail := by
    calc code.run l = code.run (lead ++ trim l ++ tail) := congrArg _ ht
      _ = (code.run (trim l)).run tail := by rw [run_append, run_append, (run_code_blank hlead).1]
  have hclosed : (code.run (trim l)).quote = none := by
    rw [← (marks_of_blank (proper_code.run (trim l)) htail (uncut_of_not_mem hcut)).2, ← hrun, h]
  refine ⟨Eq.symm ?_, hclosed⟩
  calc literals l = literals (lead ++ (trim l ++ tail)) := by rw [← List.append_assoc, ← ht]
    _ = literals (trim l ++ tail) := literals_blank_append hlead _
    _ = literals (trim l) ++ literalsFrom (code.run (trim l)) [] tail := literalsFrom_append hclosed [] tail
    _ = literals (trim l) := by rw [literalsFrom_blank hclosed htail, List.append_nil]

/-- a line feed that neither cuts a literal nor is hidden in one is outside literals -/
theorem closed_of_newline {q : Quoting} (hcut : .cut ∉ q.marks ['\n']) (hc : q.Uncontinued ['\n']) :
    q.quote = none := by
  obtain ⟨k, e⟩ := q
  cases k with
  | none => rfl
  | some k =>
    cases e with
    | true => exact absurd ⟨rfl, rfl, rfl⟩ hc.1
    | false => exact absurd (by simp [marks_cons, Mark.ofChar?, isCutBy]) hcut

/-- **The lines of a text end outside literals** if each literal is on one line. -/
theorem closed_lines {ls : List Text} (h : Whole (['\n'].intercalate ls)) : ∀ l ∈ ls, (code.run l).quote = none := by
  induction ls with
  | nil => simp
  | cons l ls ih =>
    cases ls with
    | nil => simpa using h.closed
    | cons l' ls =>
      obtain ⟨hq, hcut, hc⟩ := h
      rw [List.intercalate_cons_cons] at hq hcut hc
      rw [marks_append, marks_append, List.mem_append, List.mem_append, not_or, not_or] at hcut
      rw [uncontinued_append, uncontinued_append] at hc
      have hl : (code.run l).quote = none := closed_of_newline hcut.1.2 hc.1.2
      have hnext : code.run (l ++ ['\n']) = code := (literals_between hl (by decide) (by simp) []).2
      rw [hnext] at hcut hc
      rw [run_append, hnext] at hq
      exact List.forall_mem_cons.2 ⟨hl, ih ⟨hq, hcut.2, hc.2⟩⟩

namespace Rule

/-- **A body has the literals of its trimmed lines**, which end outside literals. -/
theorem literals_bodyLines {b : Text} (h : Text.Whole b) :
    (∀ l ∈ bodyLines b, (code.run l).quote = none) ∧ (bodyLines b).flatMap literals = literals b := by
  have hlines : ['\n'].intercalate (b.splitOn '\n') = b := List.intercalate_splitOn '\n'
  have hclosed : ∀ l ∈ b.splitOn '\n', (code.run l).quote = none := closed_lines (by rwa [hlines])
  have htrim : ∀ l ∈ b.splitOn '\n', literals (trim l) = literals l ∧ (code.run (trim l)).quote = none := by
    intro l hl
    refine literals_trim (fun hn => ?_) (hclosed l hl)
    have := not_of_mem_splitOnP hl '\n' hn
    simp at this
  refine ⟨?_, ?_⟩
  · intro l hl
    obtain ⟨w, hw, rfl⟩ := List.mem_map.1 (List.mem_filter.1 hl).1
    exact (htrim w hw).2
  · -- a line that is left out has no literals
    have hvisible (ls : List Text) : (ls.filter (!·.isEmpty)).flatMap literals = ls.flatMap literals := by
      induction ls with
      | nil => rfl
      | cons l ls ih =>
        cases l with
        | nil => exact ih
        | cons c l => simpa using ih
    calc (bodyLines b).flatMap literals = (b.splitOn '\n').flatMap fun l => literals (trim l) := by
          rw [bodyLines, hvisible, List.flatMap_map]
      _ = (b.splitOn '\n').flatMap literals := List.flatMap_congr fun l hl => (htrim l hl).1
      _ = literals b := by rw [← literals_intercalate hclosed, hlines]

/-! ## Rendering -/

/-- a rule whose selector and body end outside literals, the body with none that is cut or goes on behind a line feed -/
structure Whole (r : Rule) : Prop where
  selector : (code.run r.selector).quote = none
  body : Text.Whole r.body

theorem literals_indented {ls : List Text} (h : ∀ l ∈ ls, (code.run l).quote = none) (b : Text) :
    literals (ls.flatMap (fun l => "    ".toList ++ l ++ ['\n']) ++ b) = ls.flatMap literals ++ literals b ∧
      code.run (ls.flatMap fun l => "    ".toList ++ l ++ ['\n']) = code := by
  induction ls with
  | nil => exact ⟨rfl, rfl⟩
  | cons l ls ih =>
    obtain ⟨hl, hls⟩ := List.forall_mem_cons.1 h
    obtain ⟨ihl, ihr⟩ := ih hls
    have hindent : Blank "    ".toList := by decide
    have hend : code.run (l ++ ['\n']) = code := (literals_between hl (by decide) (by simp) []).2
    refine ⟨?_, ?_⟩
    · rw [List.flatMap_cons, List.append_assoc, List.append_assoc, List.append_assoc, literals_blank_append hindent,
        ← List.append_assoc, (literals_between hl (by decide) (by simp) _).1, ihl, List.flatMap_cons, List.append_assoc]
    · rw [List.flatMap_cons, run_append, List.append_assoc, run_append, (run_code_blank hindent).1, hend, ihr]

/-- **A rendered rule has the literals of its selector and its body.** -/
theorem literals_render {r : Rule} (h : r.Whole) :
    literals r.render = literals r.selector ++ literals r.body ∧ code.run r.render = code := by
  obtain ⟨hlines, hliterals⟩ := literals_bodyLines h.body
  obtain ⟨hindented, hrun⟩ := literals_indented hlines ['}']
  have hparts : r.render = r.selector ++ [' '] ++ (['{', '\n'] ++
      ((bodyLines r.body).flatMap (fun l => "    ".toList ++ l ++ ['\n']) ++ ['}'])) := by
    simp [render]
  obtain ⟨hselector, hspace⟩ := literals_between h.selector (g := [' ']) (by decide) (by simp) (['{', '\n'] ++
    ((bodyLines r.body).flatMap (fun l => "    ".toList ++ l ++ ['\n']) ++ ['}']))
  refine ⟨?_, ?_⟩
  · rw [hparts, hselector, literals_append (a := ['{', '\n']) (by decide), hindented, hliterals]
    simp [show literals ['{', '\n'] = [] from rfl, show literals ['}'] = [] from rfl]
  · rw [hparts, run_append, hspace, run_append, show code.run ['{', '\n'] = code from by decide, run_append, hrun]
    decide

/-- **So do rendered rules**, one rule after the other. -/
theorem literals_toCss_whole {rules : List Rule} (h : ∀ r ∈ rules, r.Whole) :
    literals (toCss rules) = rules.flatMap fun r => literals r.selector ++ literals r.body := by
  have hrule : ∀ r ∈ rules, literals (r.render ++ ['\n']) = literals r.selector ++ literals r.body ∧
      code.run (r.render ++ ['\n']) = code := by
    intro r hr
    obtain ⟨hl, hrun⟩ := literals_render (h r hr)
    refine ⟨?_, by rw [run_append, hrun]; decide⟩
    rw [literals_append hrun, hl, show literals ['\n'] = [] from rfl, List.append_nil]
  unfold toCss
  rw [literals_intercalate, List.flatMap_map]
  · exact List.flatMap_congr fun r hr => (hrule r hr).1
  · intro t ht
    obtain ⟨r, hr, rfl⟩ := List.mem_map.1 ht
    rw [(hrule r hr).2]
    rfl

end Rule

/-! ## Parsed rules -/

/-- a rule of a text without cut literals has none, and its texts end outside literals -/
theorem whole_of_mem_parse {config : ParseConfig} {source : SourceId} {text : Text} {r : Rule}
    (hstring : ∀ i ∈ (Stylesheet.parse config source text).issues, i.kind ≠ .unterminatedString)
    (hr : r ∈ (Stylesheet.parse config source text).rules) (hc : code.Uncontinued r.body) : r.Whole := by
  obtain ⟨b, n, hn, hfound, hcutP, hcutB⟩ := found_of_mem_parse hstring hr
  obtain ⟨hs, -, hbody, -, -⟩ := Stylesheet.of_toRule? hn
  obtain ⟨-, hselector⟩ := retouched_marks (retouched_normalize b.prelude) hcutP
  obtain ⟨hmarks, hquote⟩ := retouched_marks (retouched_trim b.body) hcutB
  rw [hfound.prelude.closed] at hselector
  rw [hfound.body.closed] at hquote
  refine ⟨?_, ?_, ?_, hc⟩
  · rw [hs, hselector]
    rfl
  · rw [hbody, hquote]
    rfl
  · rw [hbody, hmarks]
    exact hcutB

/-- **Rendered rules keep their literals**, verbatim and in order, if they were parsed from a text without cut literals
and none of the literals in their bodies goes on behind a line feed. -/
theorem literals_toCss (config : ParseConfig) (source : SourceId) {text : Text}
    (hstring : ∀ i ∈ (Stylesheet.parse config source text).issues, i.kind ≠ .unterminatedString) {rules : List Rule}
    (hrules : ∀ r ∈ rules, r ∈ (Stylesheet.parse config source text).rules ∧ code.Uncontinued r.body) :
    literals (Rule.toCss rules) = rules.flatMap fun r => literals r.selector ++ literals r.body :=
  Rule.literals_toCss_whole fun r hr => whole_of_mem_parse hstring (hrules r hr).1 (hrules r hr).2

/-- literals with blanks, braces, an escaped quote and a comment opener, behind an escaped line feed and in an inner
rule -/
def quotedText : Text :=
  ".a[b=\"c  \\\"d\"] \x7b e: 'f \x7b ;  g';\n\n   h: \\\n j '/*'; \x7d\n@media k \x7b l \x7b m: \"n\" \x7d \x7d".toList

theorem literals_toCss_quoted :
    let rules := (Stylesheet.parse {} ⟨0⟩ quotedText).rules
    (∀ i ∈ (Stylesheet.parse {} ⟨0⟩ quotedText).issues, i.kind ≠ .unterminatedString) ∧
    (∀ r ∈ rules, r ∈ (Stylesheet.parse {} ⟨0⟩ quotedText).rules ∧ code.Uncontinued r.body) ∧
    literals (Rule.toCss rules) =
      ["\"c \\\"d\"".toList, "'f \x7b ;  g'".toList, "'/*'".toList, "\"n\"".toList] ∧
    literals (Rule.toCss rules) = rules.flatMap fun r => literals r.selector ++ literals r.body := by
  intro rules
  have hstring : ∀ i ∈ (Stylesheet.parse {} ⟨0⟩ quotedText).issues, i.kind ≠ .unterminatedString := by
    decide +kernel
  have huncontinued : ∀ r ∈ rules, code.Uncontinued r.body := by decide +kernel
  have hrules : ∀ r ∈ rules, r ∈ (Stylesheet.parse {} ⟨0⟩ quotedText).rules ∧ code.Uncontinued r.body :=
    fun r hr => ⟨hr, huncontinued r hr⟩
  exact ⟨hstring, hrules, by decide +kernel, literals_toCss {} ⟨0⟩ hstring hrules⟩

/-- **So do merged rules**: a merge is rendered with the literals of its selectors and bodies, each of which is that of
an input. -/
theorem literals_merge (config : ParseConfig) (inputs : List (SourceId × Text))
    (hstring : ∀ i ∈ inputs, ∀ issue ∈ (Stylesheet.parse config i.1 i.2).issues, issue.kind ≠ .unterminatedString)
    (hc : ∀ i ∈ inputs, ∀ r ∈ (Stylesheet.parse config i.1 i.2).rules, code.Uncontinued r.body) :
    let merged := Cascade.merge (inputs.map fun i => (Stylesheet.parse config i.1 i.2).rules)
    literals merged.toCss = merged.rules.flatMap fun r => literals r.selector ++ literals r.body := by
  intro merged
  have hinput : ∀ r ∈ (inputs.map fun i => (Stylesheet.parse config i.1 i.2).rules).flatten, r.Whole := by
    intro r hr
    obtain ⟨l, hl, hr⟩ := List.mem_flatten.1 hr
    obtain ⟨i, hi, rfl⟩ := List.mem_map.1 hl
    exact whole_of_mem_parse (hstring i hi) hr (hc i hi r hr)
  refine Rule.literals_toCss_whole fun r hr => ?_
  obtain ⟨⟨f, hf, hselector, -⟩, l, hl, hbody⟩ := Cascade.mem_merge hr
  exact ⟨hselector ▸ (hinput f hf).selector, hbody ▸ (hinput l hl).body⟩

/-- a literal that goes on behind a line feed -/
def indentedText : Text := ".a \x7b b: \"c\\\nd\"; \x7d".toList

/-- it is indented as if it were code -/
theorem literals_toCss_indented :
    let w := Stylesheet.parse {} ⟨0⟩ indentedText
    w.issues = [] ∧ w.fault = none ∧
    w.rules.flatMap (fun r => literals r.selector ++ literals r.body) = ["\"c\\\nd\"".toList] ∧
    literals (Rule.toCss w.rules) = ["\"c\\\n    d\"".toList] := by
  decide +kernel

end StyleCheck
