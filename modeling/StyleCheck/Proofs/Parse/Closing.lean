/-
Closing what is open.

A text that ends in code with braces open can be repaired by closing braces behind it, and the fault says how many it
takes. Each of them lowers the depth by one (`run_closers`); the one that reaches zero ends the block, the only one that
is new, and all others are stray (`run_strays`).

Main statement: `parse_closers`, with what fewer, just as many and more closing braces give, and whose line the fault
tells: that of the outermost brace still open.
-/
import StyleCheck.Proofs.Parse.Depth

namespace StyleCheck

open Quoting Text

/-- `k` closing braces -/
def Text.closers (k : Nat) : Text := List.replicate k '}'

theorem Text.closers_succ (k : Nat) : closers (k + 1) = '}' :: closers k := List.replicate_succ

theorem Text.closers_append (j k : Nat) : closers j ++ closers k = closers (j + k) := List.replicate_append_replicate

/-! ## Comments -/

namespace Comment

/-- a closing brace in code is kept, and leads to plain text -/
theorem step_closer {s : St} (h : s.place.inCode = true) :
    step s '}' = ⟨.text code, s.line, '}' :: (s.place.held ++ s.kept)⟩ := by
  obtain ⟨place, line, kept⟩ := s
  cases place with
  | text q =>
    obtain rfl := (isCode_iff q).1 h
    rfl
  | slash => rfl
  | comment o | star o => cases h

/-- **Closing braces behind a text that ends in code are kept**, and no comment is left open. -/
theorem run_closers {s : St} (h : s.place.inCode = true) (k : Nat) :
    (run s (closers k)).text = s.text ++ closers k ∧ (run s (closers k)).issues = [] := by
  induction k generalizing s with
  | zero =>
    refine ⟨(List.append_nil _).symm, ?_⟩
    obtain ⟨place, line, kept⟩ := s
    cases place with
    | text q | slash => rfl
    | comment o | star o => cases h
  | succ k ih =>
    rw [closers_succ, run_cons, step_closer h]
    obtain ⟨htext, hissues⟩ := ih (s := ⟨.text code, s.line, '}' :: (s.place.held ++ s.kept)⟩) rfl
    refine ⟨htext.trans ?_, hissues⟩
    simp [St.text, Place.held]

end Comment

/-! ## Blocks -/

namespace Block

section
variable (line n : Nat) (blocks : List Block) (issues : List Issue)

/-- **Each closing brace lowers the depth by one.** -/
theorem run_closers (p : Text) (l o d k : Nat) (seen : Text) :
    run ⟨code, line, .within p l o (d + k) seen, blocks, issues, n⟩ (closers k) =
      ⟨code, line, .within p l o d (closers k ++ seen), blocks, issues, n⟩ := by
  induction k generalizing seen with
  | zero => rfl
  | succ k ih =>
    have hstep : step ⟨code, line, .within p l o (d + k + 1) seen, blocks, issues, n⟩ '}' =
        ⟨code, line, .within p l o (d + k) ('}' :: seen), blocks, issues, n⟩ := rfl
    have hseen : closers k ++ '}' :: seen = closers (k + 1) ++ seen := by
      rw [← closers_append k 1, List.append_assoc]
      rfl
    rw [closers_succ, run_cons, ← Nat.add_assoc, hstep, ih, hseen]
    rfl

/-- **Between blocks, each closing brace is stray.** -/
theorem run_strays (k : Nat) :
    run ⟨code, line, .between, blocks, issues, n⟩ (closers k) =
      ⟨code, line, .between, blocks, List.replicate k ⟨.strayCloseBrace, line⟩ ++ issues, n⟩ := by
  induction k generalizing issues with
  | zero => rfl
  | succ k ih =>
    have hstep : step ⟨code, line, .between, blocks, issues, n⟩ '}' =
        ⟨code, line, .between, blocks, ⟨.strayCloseBrace, line⟩ :: issues, n⟩ := rfl
    rw [closers_succ, run_cons, hstep, ih, List.replicate_succ', List.append_assoc]
    rfl

/-- one more than the depth closes the block, and the rest is stray -/
theorem run_closers_over (p : Text) (l o d k : Nat) (seen : Text) :
    run ⟨code, line, .within p l o d seen, blocks, issues, n⟩ (closers (d + 1 + k)) =
      ⟨code, line, .between, ⟨p, (closers d ++ seen).reverse, l, o⟩ :: blocks,
        List.replicate k ⟨.strayCloseBrace, line⟩ ++ issues, n⟩ := by
  have hdepth := run_closers line n blocks issues p l o 0 d seen
  rw [Nat.zero_add] at hdepth
  have hstep : step ⟨code, line, .within p l o 0 (closers d ++ seen), blocks, issues, n⟩ '}' =
      ⟨code, line, .between, ⟨p, (closers d ++ seen).reverse, l, o⟩ :: blocks, issues, n⟩ := rfl
  rw [Nat.add_assoc, ← closers_append, run_append, hdepth, Nat.add_comm 1 k, closers_succ, run_cons, hstep, run_strays]

end

/-- where a scan with a fault ends -/
theorem within_of_fault {line l d : Nat} {t : Text} (h : (scan line t).fault = some (.unterminatedBlock l d)) :
    ∃ p b e seen, d = e + 1 ∧ (run (start line) t).place = .within p b l e seen := by
  unfold scan St.finish at h
  cases hp : (run (start line) t).place with
  | within p b o e seen =>
    simp only [hp, Option.some.injEq, Fault.unterminatedBlock.injEq] at h
    obtain ⟨rfl, rfl⟩ := h
    exact ⟨p, b, e, seen, rfl, rfl⟩
  | _ => simp [hp] at h

/-- **What closing braces behind a text with a fault give**: fewer than the depth only lower it; as many end the one
block that was open, and each one more is stray. -/
theorem scan_closers {line l d : Nat} {t : Text} (h : (scan line t).fault = some (.unterminatedBlock l d))
    (hcode : code.run t = code) :
    ∃ b : Block, ∀ k,
      (k < d → (scan line (t ++ closers k)).blocks = (scan line t).blocks ∧
        (scan line (t ++ closers k)).fault = some (.unterminatedBlock l (d - k))) ∧
      (d ≤ k → (scan line (t ++ closers k)).blocks = (scan line t).blocks ++ [b] ∧
        (scan line (t ++ closers k)).fault = none ∧
        (scan line (t ++ closers k)).issues =
          (scan line t).issues ++ List.replicate (k - d) ⟨.strayCloseBrace, line + newlines t⟩) := by
  obtain ⟨p, b, e, seen, rfl, hplace⟩ := within_of_fault h
  have hquoting : (run (start line) t).quoting = code := (holds_run line t).quoting.trans hcode
  have hline : (run (start line) t).line = line + newlines t := line_run (start line) t
  unfold scan
  simp only [run_append]
  generalize run (start line) t = s at hplace hquoting hline
  obtain ⟨q, ln, place, blocks, issues, n⟩ := s
  obtain ⟨rfl, rfl, rfl⟩ : place = _ ∧ q = _ ∧ ln = _ := ⟨hplace, hquoting, hline⟩
  refine ⟨⟨p, (closers e ++ seen).reverse, b, l⟩, fun k => ⟨fun hk => ?_, fun hk => ?_⟩⟩
  · obtain ⟨j, rfl⟩ := Nat.exists_eq_add_of_le' (Nat.le_of_lt_succ hk)
    rw [run_closers]
    refine ⟨rfl, ?_⟩
    show some (Fault.unterminatedBlock l (j + 1)) = _
    rw [Nat.add_right_comm, Nat.add_sub_cancel]
  · obtain ⟨j, rfl⟩ := Nat.exists_eq_add_of_le hk
    rw [run_closers_over]
    refine ⟨by simp [St.finish], rfl, ?_⟩
    simp [St.finish]

end Block

/-! ## Rules -/

namespace Stylesheet

theorem rulesOf_append (config : ParseConfig) (source : SourceId) (l l' : List Block) :
    rulesOf config source (l ++ l') = rulesOf config source l ++ rulesOf config source l' :=
  List.filterMap_append

theorem blanks_append (config : ParseConfig) (source : SourceId) (l l' : List Block) :
    blanks config source (l ++ l') = blanks config source l + blanks config source l' :=
  List.countP_append

/-- a block gives one rule, or is dropped -/
theorem rulesOf_singleton (config : ParseConfig) (source : SourceId) (b : Block) :
    blanks config source [b] + (rulesOf config source [b]).length = 1 := by
  unfold blanks rulesOf
  cases h : b.toRule? config source 0 <;> simp [h]

/-- **The fault stands at the outermost brace that stays open**: all others that do are behind it. -/
theorem outermost_of_fault {t : Text} {line d : Nat} (hdepth : 0 < depth t)
    (h : (Block.scan 1 (Comment.strip t)).fault = some (.unterminatedBlock line d)) :
    ∃ u v, t = u ++ '{' :: v ∧ StaysOpen u v ∧ (∀ u' v', t = u' ++ '{' :: v' → StaysOpen u' v' → u <+: u') ∧
      line = 1 + newlines u := by
  obtain ⟨u, v, rfl, hopen, hzero, houter⟩ := exists_outermost 1 hdepth
  refine ⟨u, v, rfl, hopen, fun u' v' ht' hopen' => ?_, ?_⟩
  · -- a brace further to the left would be one inside which the depth is zero
    rcases List.append_eq_append_iff.1 ht' with ⟨w, hw, -⟩ | ⟨w, hw, hrest⟩
    · exact ⟨w, hw.symm⟩
    · cases w with
      | nil => exact ⟨[], by simpa using hw⟩
      | cons c w =>
        obtain ⟨rfl, hv'⟩ := List.cons.inj hrest
        have hdeeper := hopen'.deeper w ⟨_, hv'.symm⟩
        rw [← hw, hzero] at hdeeper
        omega
  · rw [Block.fault_scan, (scanned_strip 1 _).2, houter, Option.map_some, Option.some.injEq] at h
    exact ((Fault.unterminatedBlock.injEq ..).mp h).1.symm

/-- **The depth of a fault is what it takes to repair the text.** Behind a text that ends in code, fewer closing braces
than the fault says leave it as it is, but for the depth; as many repair it, which ends one more block; and each one
more is stray. And the line of the fault is always that of the outermost brace that stays open. -/
theorem parse_closers (config : ParseConfig) (source : SourceId) {t : Text} {line d : Nat}
    (h : (parse config source t).fault = some (.unterminatedBlock line d)) :
    ((Comment.run (Comment.start 1) t).place.inCode = true →
      ∃ more : List Rule, more.length ≤ 1 ∧ ∀ k, byteSize (t ++ closers k) ≤ config.maxInputSize →
        let s := parse config source t
        let s' := parse config source (t ++ closers k)
        (k < d → s'.rules = s.rules ∧ s'.fault = some (.unterminatedBlock line (d - k))) ∧
        (d ≤ k → s'.fault = none ∧ s'.rules = s.rules ++ more ∧
          s'.stats.dropped + s'.rules.length = s.stats.dropped + s.rules.length + 1 ∧
          s'.issues = s.issues ++ List.replicate (k - d) ⟨.strayCloseBrace, 1 + newlines t⟩)) ∧
    ∃ u v, t = u ++ '{' :: v ∧ StaysOpen u v ∧ (∀ u' v', t = u' ++ '{' :: v' → StaysOpen u' v' → u <+: u') ∧
      line = 1 + newlines u := by
  obtain ⟨hsize, hpos, hdepth⟩ := (fault_parseAt_iff config source 1 d t).1 ⟨line, h⟩
  obtain ⟨hrules, hissues, hfault, hdropped⟩ := parseAt_strip source 1 hsize
  have hscan := hfault.symm.trans h
  constructor
  · intro hcode
    obtain ⟨b, hclosers⟩ := Block.scan_closers hscan (Comment.quoting_of_inCode hcode)
    have hone := rulesOf_singleton config source b
    have hlength := length_numbered (rulesOf config source (Block.scan 1 (Comment.strip t)).blocks).length
      (rulesOf config source [b])
    refine ⟨numbered (rulesOf config source (Block.scan 1 (Comment.strip t)).blocks).length
      (rulesOf config source [b]), by omega, fun k hk => ?_⟩
    obtain ⟨hrules', hissues', hfault', hdropped'⟩ := parseAt_strip source 1 hk
    obtain ⟨hstrip, hclosed⟩ := Comment.run_closers hcode k
    rw [← Comment.run_append] at hstrip hclosed
    have hstrip : Comment.strip (t ++ closers k) = Comment.strip t ++ closers k := hstrip
    have hopen : (Comment.run (Comment.start 1) t).issues = [] := (Comment.run_closers hcode 0).2
    rw [hstrip] at hrules' hissues' hfault' hdropped'
    obtain ⟨hfewer, hmore⟩ := hclosers k
    intro s s'
    refine ⟨fun hlt => ?_, fun hle => ?_⟩
    · obtain ⟨hblocks, hf⟩ := hfewer hlt
      exact ⟨hrules'.trans (hblocks ▸ hrules.symm), hfault'.trans hf⟩
    · obtain ⟨hblocks, hf, hi⟩ := hmore hle
      rw [hblocks, rulesOf_append, numbered_append, Nat.zero_add, ← hrules] at hrules'
      rw [hblocks, blanks_append, ← hdropped] at hdropped'
      refine ⟨hfault'.trans hf, hrules', ?_, ?_⟩
      · have hlengths := congrArg List.length hrules'
        rw [List.length_append, hlength] at hlengths
        show (parseAt config source 1 (t ++ closers k)).stats.dropped +
            (parseAt config source 1 (t ++ closers k)).rules.length =
          (parseAt config source 1 t).stats.dropped + (parseAt config source 1 t).rules.length + 1
        omega
      · refine hissues'.trans ?_
        rw [hi, hclosed, List.nil_append, Comment.newlines_strip]
        refine congrArg (· ++ _) ?_
        exact (hissues.trans (by rw [hopen, List.nil_append])).symm
  · exact outermost_of_fault (hdepth ▸ hpos) hscan

/-- a stray brace, masked braces and three blocks of which one is closed and the others, one in the other, are not -/
def unclosedText : Text := "\x7d .a\x7bb: '\x7b'\x7d\n@media c \x7b/*\n\x7b*/ .d\\\x7b \x7b\n e /".toList

theorem parse_closers_unclosed :
    let s := parse {} ⟨0⟩ unclosedText
    let s' := parse {} ⟨0⟩ (unclosedText ++ closers 3)
    s.fault = some (.unterminatedBlock 2 2) ∧
    (Comment.run (Comment.start 1) unclosedText).place.inCode = true ∧
    byteSize (unclosedText ++ closers 3) ≤ ({} : ParseConfig).maxInputSize ∧
    s'.fault = none ∧ s'.stats.dropped + s'.rules.length = s.stats.dropped + s.rules.length + 1 ∧
    s'.issues = s.issues ++ [⟨.strayCloseBrace, 4⟩] := by
  intro s s'
  have hfault : s.fault = some (.unterminatedBlock 2 2) := by decide +kernel
  have hcode : (Comment.run (Comment.start 1) unclosedText).place.inCode = true := by decide +kernel
  have hsize : byteSize (unclosedText ++ closers 3) ≤ ({} : ParseConfig).maxInputSize := by decide +kernel
  obtain ⟨hclosers, -⟩ := parse_closers {} ⟨0⟩ hfault
  obtain ⟨more, -, hk⟩ := hclosers hcode
  obtain ⟨hnone, -, hcount, hissues⟩ := (hk 3 hsize).2 (by decide)
  exact ⟨hfault, hcode, hsize, hnone, hcount, hissues.trans (by decide +kernel)⟩

end Stylesheet

end StyleCheck
