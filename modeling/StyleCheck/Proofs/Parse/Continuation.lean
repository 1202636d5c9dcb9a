/-
How a scan goes on.

What was found stays (`blocks_run`, `mem_issues_run`), and only a closing brace adds a block. As long as no brace was
stray, the marks of the text read are balanced up to the braces still open (`depth_run`).

A scan that begins behind other text runs as it would alone. `St.Later n earlier s s'` says that `s` is `s'`, `n` lines
further on, with the blocks `earlier` found before, and that the only other difference are blanks in front of what was
begun: a blank that is not an ASCII one begins a prelude, which is then on a line of its own.
- `later_step`: one character keeps this; `later_run`: so does every text;
- `scan_append`: so what is found in the end is the same, further down;
- `later_of_finish`: where a scan without a fault or trailing content ends, another may begin;
- `scan_trim`: behind blanks it may begin too, so trimming a text leaves its blocks as they are.
-/
import Mathlib.Data.List.Forall2
import StyleCheck.Proofs.Parse.Items

namespace StyleCheck

/-- the same fault, `n` lines later -/
def Fault.later (n : Nat) : Fault → Fault
  | .unterminatedBlock line depth => .unterminatedBlock (line + n) depth
  | .inputTooLarge size limit => .inputTooLarge size limit

namespace Block

open Quoting Text

theorem line_run (s : St) (t : Text) : (run s t).line = s.line + newlines t := by
  induction t generalizing s with
  | nil => rfl
  | cons c t ih =>
    have hs : (step s c).line = s.line + newlines [c] := line_next s.line c
    rw [run_cons, ih, hs, newlines_cons c t, Nat.add_assoc]

/-! ## What stays -/

theorem blocks_act (s : St) (c : Char) : s.blocks <:+ (act s c).blocks := by
  rw [act_eq]
  split
  · exact List.suffix_refl _
  · unfold closeBrace
    split
    · exact List.suffix_cons _ _
    · exact List.suffix_refl _
    · exact List.suffix_refl _
  · unfold semicolon
    split <;> exact List.suffix_refl _
  · exact List.suffix_refl _
  · exact List.suffix_refl _

/-- blocks that were found stay found -/
theorem blocks_run (s : St) (t : Text) : s.blocks <:+ (run s t).blocks := by
  induction t generalizing s with
  | nil => exact List.suffix_refl _
  | cons c t ih => exact (blocks_act s c).trans (ih (step s c))

theorem blocks_act_of_ne (s : St) {c : Char} (hc : c ≠ '}') : (act s c).blocks = s.blocks := by
  unfold act
  split
  · rfl
  split
  · rename_i h
    exact absurd h.2 hc
  split
  · unfold semicolon
    split <;> rfl
  · rfl

/-- a block ends in a closing brace -/
theorem blocks_run_of_not_mem (s : St) {t : Text} (h : '}' ∉ t) : (run s t).blocks = s.blocks := by
  induction t generalizing s with
  | nil => rfl
  | cons c t ih =>
    obtain ⟨hc, ht⟩ := not_or.1 (mt List.mem_cons.2 h)
    exact (ih (step s c) ht).trans (blocks_act_of_ne s (Ne.symm hc))

/-- **The blocks of a text stay when more is read.** -/
theorem blocks_prefix (line : Nat) (a b : Text) : (scan line a).blocks <+: (scan line (a ++ b)).blocks := by
  simp only [scan, St.finish, run_append]
  exact List.reverse_prefix.2 (blocks_run _ b)

theorem blocks_append_of_not_mem (line : Nat) (a : Text) {b : Text} (h : '}' ∉ b) :
    (scan line (a ++ b)).blocks = (scan line a).blocks := by
  simp only [scan, St.finish, run_append, blocks_run_of_not_mem _ h]

theorem mem_issues_run {s : St} {i : Issue} (h : i ∈ s.issues) (t : Text) : i ∈ (run s t).issues := by
  induction t generalizing s with
  | nil => exact h
  | cons c t ih => exact ih (mem_issues_act h c)

/-! ## Depth -/

/-- the braces open at a place -/
def Place.depth : Place → Nat
  | .within _ _ _ d _ => d + 1
  | _ => 0

theorem depth_keep (line : Nat) (c : Char) (p : Place) : (p.keep line c).depth = p.depth := by
  cases p with
  | between =>
    simp only [Place.keep]
    split <;> rfl
  | _ => rfl

/-- a brace that is not stray changes the depth as its mark says -/
theorem depth_act {s : St} {c : Char} (h : ∀ i ∈ (act s c).issues, i.kind ≠ .strayCloseBrace) :
    Mark.depth? s.place.depth (Mark.ofChar? s.quoting c).toList = some (act s c).place.depth := by
  rw [act_eq] at h ⊢
  cases hm : Mark.ofChar? s.quoting c with
  | none => exact congrArg some (depth_keep s.line c s.place).symm
  | some m =>
    rw [hm] at h
    cases m with
    | opens =>
      show some (s.place.depth + 1) = _
      unfold openBrace
      rcases s.place with _ | ⟨l, seen⟩ | ⟨p, l, o, d, seen⟩ <;> rfl
    | closes =>
      simp only [closeBrace] at h ⊢
      rcases hp : s.place with _ | ⟨l, seen⟩ | ⟨p, l, o, _ | d, seen⟩ <;> simp only [hp] at h ⊢
      · exact absurd rfl (h _ List.mem_cons_self)
      · exact absurd rfl (h _ List.mem_cons_self)
      · rfl
      · rfl
    | ends =>
      show some s.place.depth = _
      simp only [semicolon]
      rcases hp : s.place with _ | ⟨l, seen⟩ | ⟨p, l, o, d, seen⟩ <;> simp only [hp] <;> rfl
    | cut => exact congrArg some (depth_keep s.line c s.place).symm

/-- **Without stray braces, the marks of the text read are balanced up to the braces still open.** -/
theorem depth_run {line : Nat} {t : Text}
    (h : ∀ i ∈ (run (start line) t).issues, i.kind ≠ .strayCloseBrace) :
    Mark.depth? 0 (code.marks t) = some (run (start line) t).place.depth := by
  induction t using List.reverseRecOn with
  | nil => rfl
  | append_singleton t c ih =>
    rw [run_append] at h ⊢
    have ih := ih fun i hi => h i (mem_issues_run hi [c])
    rw [marks_concat, Mark.depth?_append, ih, ← (holds_run line t).quoting]
    exact depth_act h

/-! ## A scan behind other text -/

/-- the same block, `n` lines later, with blanks in front of its prelude; the blanks may begin on any line -/
structure Later (n : Nat) (b b' : Block) : Prop where
  prelude : ∃ g, Blank g ∧ b.prelude = g ++ b'.prelude
  body : b.body = b'.body
  openLine : b.openLine = b'.openLine + n

/-- the same place, `n` lines later, with blanks in front of what was begun -/
inductive Place.Later (n : Nat) : Place → Place → Prop where
  | between : Place.Later n .between .between
  | blank {l : Nat} {g : Text} : Blank g → Place.Later n (.before l g) .between
  | before {l l' : Nat} {seen seen' g : Text} : Blank g → seen = seen' ++ g →
      Place.Later n (.before l seen) (.before l' seen')
  | within {l l' o o' d : Nat} {p p' g seen : Text} : Blank g → p = g ++ p' → o = o' + n →
      Place.Later n (.within p l o d seen) (.within p' l' o' d seen)

/-- the same state, `n` lines later, with the blocks `earlier` found before -/
structure St.Later (n : Nat) (earlier : List Block) (s s' : St) : Prop where
  quoting : s.quoting = s'.quoting
  line : s.line = s'.line + n
  place : s.place.Later n s'.place
  blocks : ∃ found, s.blocks = found ++ earlier ∧ List.Forall₂ (Block.Later n) found s'.blocks

theorem blank_reverse {g : Text} (h : Blank g) : Blank g.reverse := fun c hc => h c (List.mem_reverse.1 hc)

section
variable {n : Nat} {earlier : List Block}

theorem later_keep {p p' : Place} (h : p.Later n p') (line line' : Nat) (c : Char) :
    (p.keep line c).Later n (p'.keep line' c) := by
  cases h with
  | between =>
    simp only [Place.keep]
    split
    · exact .between
    · exact .before blank_nil rfl
  | blank hg =>
    simp only [Place.keep]
    split
    · rename_i hc
      exact .blank (blank_cons.2 ⟨blank_of_asciiBlank hc, hg⟩)
    · exact .before hg rfl
  | before hg hs => exact .before hg (congrArg (c :: ·) hs)
  | within hg hp ho => exact .within hg hp ho

variable {s s' : St} (h : s.Later n earlier s')
include h

theorem later_openBrace : (openBrace s).Later n earlier (openBrace s') := by
  obtain ⟨hq, hl, hp, hb⟩ := h
  refine ⟨hq, hl, ?_, hb⟩
  rcases s with ⟨q, line, place, blocks, issues, k⟩
  rcases s' with ⟨q', line', place', blocks', issues', k'⟩
  cases hp with
  | between => exact .within blank_nil rfl hl
  | blank hg => exact .within (blank_reverse hg) (List.append_nil _).symm hl
  | before hg hs => exact .within (blank_reverse hg) (hs ▸ List.reverse_append) hl
  | within hg hp ho => exact .within hg hp ho

theorem later_closeBrace : (closeBrace s).Later n earlier (closeBrace s') := by
  obtain ⟨hq, hl, hp, found, hb, hf⟩ := h
  rcases s with ⟨q, line, place, blocks, issues, k⟩
  rcases s' with ⟨q', line', place', blocks', issues', k'⟩
  cases hp with
  | between => exact ⟨hq, hl, .between, found, hb, hf⟩
  | blank hg => exact ⟨hq, hl, .between, found, hb, hf⟩
  | before hg hs => exact ⟨hq, hl, .between, found, hb, hf⟩
  | @within _ _ _ _ d _ _ _ _ hg hp ho =>
    cases d with
    | zero => exact ⟨hq, hl, .between, _ :: found, congrArg (_ :: ·) hb, .cons ⟨⟨_, hg, hp⟩, rfl, ho⟩ hf⟩
    | succ d => exact ⟨hq, hl, .within hg hp ho, found, hb, hf⟩

theorem later_semicolon : (semicolon s).Later n earlier (semicolon s') := by
  obtain ⟨hq, hl, hp, found, hb, hf⟩ := h
  rcases s with ⟨q, line, place, blocks, issues, k⟩
  rcases s' with ⟨q', line', place', blocks', issues', k'⟩
  cases hp with
  | between => exact ⟨hq, hl, .between, found, hb, hf⟩
  | blank hg => exact ⟨hq, hl, .between, found, hb, hf⟩
  | before hg hs => exact ⟨hq, hl, .between, found, hb, hf⟩
  | within hg hp ho => exact ⟨hq, hl, .within hg hp ho, found, hb, hf⟩

theorem later_act (c : Char) : (act s c).Later n earlier (act s' c) := by
  rw [act_eq, act_eq, h.quoting]
  cases Mark.ofChar? s'.quoting c with
  | none => exact ⟨rfl, h.line, later_keep h.place _ _ c, h.blocks⟩
  | some m =>
    cases m with
    | opens => exact later_openBrace h
    | closes => exact later_closeBrace h
    | ends => exact later_semicolon h
    | cut => exact ⟨rfl, h.line, later_keep h.place _ _ c, h.blocks⟩

/-- **One character keeps two scans in step.** -/
theorem later_step (c : Char) : (step s c).Later n earlier (step s' c) := by
  obtain ⟨-, -, hp, hb⟩ := later_act h c
  refine ⟨congrArg (·.next c) h.quoting, ?_, hp, hb⟩
  have hl := h.line
  simp only [step]
  split <;> omega

/-- **So does every text.** -/
theorem later_run (t : Text) : (run s t).Later n earlier (run s' t) := by
  induction t generalizing s s' with
  | nil => exact h
  | cons c t ih => exact ih (later_step h c)

theorem later_blocks : ∃ found, s.finish.blocks = earlier.reverse ++ found ∧
    List.Forall₂ (Block.Later n) found s'.finish.blocks := by
  obtain ⟨found, hb, hf⟩ := h.blocks
  exact ⟨found.reverse, by simp [St.finish, hb], List.forall₂_reverse_iff.2 hf⟩

theorem later_fault : s.finish.fault = s'.finish.fault.map (Fault.later n) := by
  have hp := h.place
  simp only [St.finish]
  cases hs : s.place <;> cases hs' : s'.place <;> rw [hs, hs'] at hp <;> cases hp
  case within.within ho => simp [Fault.later, ho]
  all_goals rfl

end

/-- **What a text is read as behind another one**, if a scan may begin where that one ends. -/
theorem scan_append {line first n : Nat} {earlier : List Block} {a : Text}
    (h : (run (start line) a).Later n earlier (start first)) (b : Text) :
    (∃ found, (scan line (a ++ b)).blocks = earlier.reverse ++ found ∧
      List.Forall₂ (Block.Later n) found (scan first b).blocks) ∧
    (scan line (a ++ b)).fault = (scan first b).fault.map (Fault.later n) := by
  have hb := later_run h b
  unfold scan
  rw [run_append]
  exact ⟨later_blocks hb, later_fault hb⟩

/-! ## Where another scan may begin -/

theorem place_step {s : St} {c : Char} (h : Mark.ofChar? s.quoting c = none) :
    (step s c).place = s.place.keep s.line c := by
  show (act s c).place = _
  rw [act_eq, h]

/-- a visible character is not skipped between two blocks -/
theorem not_later_keep {n : Nat} (p : Place) (line : Nat) {c : Char} (hc : isBlank c = false) :
    ¬(p.keep line c).Later n .between := by
  have ha : isAsciiBlank c ≠ true := fun ha => by simp [blank_of_asciiBlank ha] at hc
  have hb (t : Text) : ¬Blank (c :: t) := fun h => by simp [(blank_cons.1 h).1] at hc
  intro h
  cases p with
  | between =>
    simp only [Place.keep, if_neg ha] at h
    cases h with
    | blank hg => exact hb [] hg
  | before l seen =>
    cases h with
    | blank hg => exact hb seen hg
  | within p l o d seen => cases h

/-- **Where a scan without a fault or trailing content ends, another may begin.** -/
theorem later_of_finish {line first n : Nat} {t : Text} (hfault : (scan line t).fault = none)
    (htrail : ∀ i ∈ (scan line t).issues, i.kind ≠ .trailingContent) (hline : line + newlines t = first + n) :
    (run (start line) t).Later n (run (start line) t).blocks (start first) := by
  have hs := holds_run line t
  have hl : (run (start line) t).line = first + n := (line_run (start line) t).trans hline
  unfold scan St.finish at hfault htrail
  generalize run (start line) t = s at hs hl hfault htrail
  obtain ⟨q, l, place, blocks, issues, k⟩ := s
  obtain ⟨hq, hp, -, -⟩ := hs
  cases place with
  | between => exact ⟨hq.trans hp, hl, .between, [], rfl, .nil⟩
  | before l seen =>
    have hb : seen.all isBlank = true := by
      by_contra hb
      simp only [if_neg hb] at htrail
      exact htrail _ (List.mem_append_right _ List.mem_cons_self) rfl
    have hb : Blank seen := by simpa [Blank] using hb
    obtain ⟨before, rfl, hbefore, -⟩ := hp
    rw [Quoting.run_append, hbefore, (run_code_blank (blank_reverse hb)).1] at hq
    exact ⟨hq, hl, .blank hb, [], rfl, .nil⟩
  | within p l o d seen => cases hfault

/-- blanks lead to where a scan may begin -/
theorem later_blank {line first n : Nat} {g : Text} (hg : Blank g) (hline : line + newlines g = first + n) :
    (run (start line) g).Later n [] (start first) := by
  obtain ⟨hr, hm⟩ := run_code_blank hg
  unfold start
  rw [run_prelude line 0 [] [] (by simp [hm])]
  refine ⟨hr, hline, ?_, [], rfl, .nil⟩
  show (begun line g).Later n .between
  unfold begun
  split
  · exact .between
  · exact .blank (blank_reverse fun c hc => hg c ((List.dropWhile_sublist _).subset hc))

/-- **Trimming a text leaves its blocks as they are**, on their lines. -/
theorem scan_trim (line : Nat) (t : Text) :
    List.Forall₂ (Block.Later 0) (scan line t).blocks
      (scan (line + newlines (t.takeWhile isBlank)) (trim t)).blocks := by
  obtain ⟨tail, ht, hb⟩ := takeWhile_append_trim t
  have htail : '}' ∉ tail := by
    intro hc
    exact absurd (hb _ hc) (by decide)
  obtain ⟨⟨found, hfound, hlater⟩, -⟩ := scan_append (later_blank (blank_takeWhile t) rfl : St.Later 0 [] _ _) (trim t)
  have hblocks : (scan line t).blocks = found := by
    conv_lhs => rw [ht]
    rw [blocks_append_of_not_mem line _ htail, hfound]
    rfl
  exact hblocks ▸ hlater

/-- **A text that is read without a fault and a stray brace is a body**, if it ends in code. -/
theorem isBody_of_scan {line : Nat} {t : Text} (hfault : (scan line t).fault = none)
    (hstray : ∀ i ∈ (scan line t).issues, i.kind ≠ .strayCloseBrace) (hclosed : code.run t = code) : IsBody t := by
  have hdepth := depth_run fun i hi => hstray i (mem_issues_scan hi)
  have hplace : (run (start line) t).place.depth = 0 := by
    unfold scan St.finish at hfault
    cases hp : (run (start line) t).place with
    | within p l o d seen => simp [hp] at hfault
    | _ => rfl
  exact ⟨hplace ▸ hdepth, hclosed⟩

end Block

end StyleCheck
