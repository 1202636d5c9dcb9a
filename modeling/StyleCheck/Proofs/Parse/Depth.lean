/-
How deep a text ends.

A closing brace at depth zero is stepped over, so marks always lead to a depth (`Mark.level`), whatever they are. The
scanner is at the depth that the marks of the text lead to (`level_run`), and what it reports at the end is that depth
with the line of the brace that left depth zero last (`fault_scan`). `Stylesheet.depth` is the depth that a whole text
ends at, its comments included.
- `fault_parseAt_iff`: a text within the limit has a fault if it ends deeper than it began;
- `outer?_concat`: what one more character does to the brace that left depth zero last;
- `exists_outermost`: the line of a fault is that of the outermost brace that is still open.
-/
import StyleCheck.Proofs.Parse.Concatenation
import StyleCheck.Proofs.Parse.Removal
import StyleCheck.Proofs.Parse.Tracing

namespace StyleCheck

open Quoting Text

namespace Mark

/-- the depth that marks lead to, where a brace that closes what was not opened is stepped over -/
def level : Nat → List Mark → Nat
  | d, [] => d
  | d, .opens :: ms => level (d + 1) ms
  | d, .closes :: ms => level (d - 1) ms
  | d, .ends :: ms => level d ms
  | d, .cut :: ms => level d ms

theorem level_append (d : Nat) (a b : List Mark) : level d (a ++ b) = level (level d a) b := by
  induction a generalizing d with
  | nil => rfl
  | cons m a ih => cases m <;> exact ih _

end Mark

namespace Block

/-! ## The depth of a scan -/

/-- the line of the brace that left depth zero last -/
def Place.outer? : Place → Option Nat
  | .within _ _ o _ _ => some o
  | _ => none

theorem level_act (s : St) (c : Char) :
    (act s c).place.depth = Mark.level s.place.depth (Mark.ofChar? s.quoting c).toList := by
  rw [act_eq]
  cases Mark.ofChar? s.quoting c with
  | none => exact depth_keep s.line c s.place
  | some m =>
    cases m with
    | opens =>
      simp only [openBrace]
      rcases s.place with _ | ⟨l, seen⟩ | ⟨p, l, o, d, seen⟩ <;> rfl
    | closes =>
      simp only [closeBrace]
      rcases hp : s.place with _ | ⟨l, seen⟩ | ⟨p, l, o, _ | d, seen⟩ <;> rfl
    | ends =>
      simp only [semicolon]
      rcases hp : s.place with _ | ⟨l, seen⟩ | ⟨p, l, o, d, seen⟩ <;> simp only [hp] <;> rfl
    | cut => exact depth_keep s.line c s.place

/-- **A scan is at the depth that the marks of the text read lead to.** -/
theorem level_run (s : St) (t : Text) : (run s t).place.depth = Mark.level s.place.depth (s.quoting.marks t) := by
  induction t generalizing s with
  | nil => rfl
  | cons c t ih =>
    have hstep : (step s c).place.depth = Mark.level s.place.depth (Mark.ofChar? s.quoting c).toList := level_act s c
    rw [run_cons, ih, hstep, marks_cons, Mark.level_append]
    rfl

/-- **What is reported at the end**: the depth reached, and the line of the brace that left depth zero last. -/
theorem fault_scan (line : Nat) (t : Text) :
    (scan line t).fault =
      (run (start line) t).place.outer?.map fun o => .unterminatedBlock o (Mark.level 0 (code.marks t)) := by
  have hdepth := level_run (start line) t
  unfold scan St.finish
  cases hp : (run (start line) t).place with
  | within p l o d seen =>
    rw [hp] at hdepth
    exact congrArg (some ∘ Fault.unterminatedBlock o) hdepth
  | _ => rfl

theorem outer?_isSome_iff (p : Place) : p.outer?.isSome ↔ 0 < p.depth := by
  cases p <;> simp [Place.outer?, Place.depth]

/-- one character returns to depth zero, leaves it, or keeps the brace that left it -/
theorem outer?_step (s : St) (c : Char) :
    (step s c).place.depth = 0 ∨ s.place.depth ≠ 0 ∧ (step s c).place.outer? = s.place.outer? ∨
      s.place.depth = 0 ∧ s.quoting = code ∧ c = '{' ∧ (step s c).place.outer? = some s.line := by
  by_cases hdepth : s.place.depth = 0
  · rw [or_iff_not_imp_left]
    intro hopen
    have hlevel := level_act s c
    rw [hdepth] at hlevel
    have hmark : Mark.ofChar? s.quoting c = some .opens := by
      by_contra hne
      refine hopen (hlevel.trans ?_)
      cases hm : Mark.ofChar? s.quoting c with
      | none => rfl
      | some m =>
        cases m with
        | opens => exact absurd hm hne
        | _ => rfl
    obtain ⟨hcode, hc⟩ := ofChar?_some hmark
    refine Or.inr ⟨hdepth, hcode, hc, ?_⟩
    show (act s c).place.outer? = _
    rw [act_eq, hmark]
    simp only [openBrace]
    rcases hp : s.place with _ | ⟨l, seen⟩ | ⟨p, l, o, d, seen⟩ <;> rw [hp] at hdepth
    · rfl
    · rfl
    · cases hdepth
  · obtain ⟨p, l, o, d, seen, hp⟩ : ∃ p l o d seen, s.place = .within p l o d seen := by
      cases hp : s.place with
      | within p l o d seen => exact ⟨p, l, o, d, seen, rfl⟩
      | _ => exact absurd (by rw [hp]; rfl) hdepth
    rcases act_within hp c with ⟨-, d', hin⟩ | ⟨-, hout⟩
    · have hplace : (step s c).place = .within p l o d' (c :: seen) := hin
      exact Or.inr (Or.inl ⟨hdepth, by rw [hp, hplace]; rfl⟩)
    · have hplace : (step s c).place = .between := hout
      exact Or.inl (by rw [hplace]; rfl)

/-- a slash in code is only collected -/
theorem step_slash {s : St} (h : s.quoting = code) :
    (step s '/').place.depth = s.place.depth ∧ (step s '/').place.outer? = s.place.outer? ∧
      (step s '/').quoting = code ∧ (step s '/').line = s.line := by
  have hplace : (step s '/').place = s.place.keep s.line '/' := place_step (by rw [h]; decide)
  refine ⟨by rw [hplace, depth_keep], ?_, by simp [step, h, Comment.next_slash], rfl⟩
  rw [hplace]
  cases s.place <;> rfl

end Block

namespace Stylesheet

/-- the number of braces open at the end of a text, where a closing one at depth zero is stepped over -/
def depth (t : Text) : Nat := Mark.level 0 (code.marks (Comment.strip t))

theorem depth_eq (line : Nat) (t : Text) : depth t = (Block.run (Block.start line) (Comment.strip t)).place.depth :=
  (Block.level_run (Block.start line) _).symm

/-- **A text has a fault other than its size if it is read and ends deeper than it began**, and the fault tells how
deep. -/
theorem fault_parseAt_iff (config : ParseConfig) (source : SourceId) (line d : Nat) (text : Text) :
    (∃ l, (parseAt config source line text).fault = some (.unterminatedBlock l d)) ↔
      byteSize text ≤ config.maxInputSize ∧ 0 < d ∧ depth text = d := by
  by_cases hsize : byteSize text ≤ config.maxInputSize
  · have hsome := Block.outer?_isSome_iff (Block.run (Block.start line) (Comment.strip text)).place
    rw [← depth_eq] at hsome
    rw [(parseAt_strip source line hsize).2.2.1, Block.fault_scan]
    cases ho : (Block.run (Block.start line) (Comment.strip text)).place.outer? with
    | none =>
      rw [ho] at hsome
      have hzero : depth text = 0 := by simpa using hsome
      simp only [Option.map_none, reduceCtorEq, exists_false, false_iff]
      rintro ⟨-, hpos, rfl⟩
      omega
    | some o =>
      rw [ho] at hsome
      have hpos : 0 < depth text := by simpa using hsome
      simp only [Option.map_some, Option.some.injEq, Fault.unterminatedBlock.injEq, exists_and_right]
      exact ⟨fun ⟨_, hd⟩ => ⟨hsize, by rw [← hd]; exact hpos, hd⟩, fun ⟨_, _, hd⟩ => ⟨⟨o, rfl⟩, hd⟩⟩
  · constructor
    · rintro ⟨l, h⟩
      unfold parseAt at h
      rw [if_pos (by omega)] at h
      cases h
    · exact fun h => absurd h.1 hsize

/-! ## The outermost brace -/

/-- the scan of what is kept of a text for good; a slash that is held back is left out -/
def scanned (line : Nat) (t : Text) : Block.St :=
  Block.run (Block.start line) (Comment.run (Comment.start 1) t).kept.reverse

theorem quoting_scanned (line : Nat) (t : Text) :
    (scanned line t).quoting = (Comment.run (Comment.start 1) t).place.quoting :=
  (Block.holds_run line _).quoting.trans (Comment.quoting_text 1 t)

theorem line_scanned (line : Nat) (t : Text) : (scanned line t).line = line + newlines t := by
  have hfeeds := Comment.newlines_text (Comment.start 1) t
  have hheld : newlines (Comment.run (Comment.start 1) t).place.held = 0 := by
    cases (Comment.run (Comment.start 1) t).place <;> rfl
  have hstart : newlines (Comment.start 1).text = 0 := rfl
  rw [hstart, Nat.zero_add, Comment.St.text, Comment.newlines_reverse, newlines_append, hheld, Nat.zero_add] at hfeeds
  rw [scanned, Block.line_run, Comment.newlines_reverse, hfeeds]
  rfl

/-- a slash that is held back at the end changes neither the depth nor the brace that left depth zero -/
theorem scanned_strip (line : Nat) (t : Text) :
    (Block.run (Block.start line) (Comment.strip t)).place.depth = (scanned line t).place.depth ∧
    (Block.run (Block.start line) (Comment.strip t)).place.outer? = (scanned line t).place.outer? := by
  have hquoting := quoting_scanned line t
  have hstrip : Comment.strip t = (Comment.run (Comment.start 1) t).kept.reverse ++
      (Comment.run (Comment.start 1) t).place.held.reverse := by
    rw [Comment.strip, Comment.St.text, List.reverse_append]
  rw [hstrip, Block.run_append]
  cases hp : (Comment.run (Comment.start 1) t).place with
  | slash =>
    rw [hp] at hquoting
    obtain ⟨hdepth, houter, -, -⟩ := Block.step_slash hquoting
    exact ⟨hdepth, houter⟩
  | _ => exact ⟨rfl, rfl⟩

theorem depth_scanned (line : Nat) (t : Text) : depth t = (scanned line t).place.depth :=
  (depth_eq line t).trans (scanned_strip line t).1

/-- **What one more character does to the brace that left depth zero last.** Only a brace in code leaves depth zero. -/
theorem outer?_concat (line : Nat) (t : Text) (c : Char) :
    depth (t ++ [c]) = 0 ∨
    depth t ≠ 0 ∧ (scanned line (t ++ [c])).place.outer? = (scanned line t).place.outer? ∨
    depth t = 0 ∧ (Comment.run (Comment.start 1) t).place.inCode = true ∧ c = '{' ∧
      (scanned line (t ++ [c])).place.outer? = some (line + newlines t) := by
  have hrun : scanned line (t ++ [c]) =
      Block.run (scanned line t) (Comment.passed c (Comment.run (Comment.start 1) t).place).reverse := by
    rw [scanned, scanned, Comment.run_append_singleton, ← Block.run_append, ← List.reverse_append]
    rfl
  have hquoting := quoting_scanned line t
  rw [← line_scanned line t, depth_scanned line t, depth_scanned line (t ++ [c]), hrun]
  generalize scanned line t = s at hquoting ⊢
  have hstay (p : Prop) : s.place.depth = 0 ∨ s.place.depth ≠ 0 ∧ s.place.outer? = s.place.outer? ∨ p :=
    (eq_or_ne s.place.depth 0).imp_right fun h => Or.inl ⟨h, rfl⟩
  cases hp : (Comment.run (Comment.start 1) t).place with
  | text q =>
    rw [hp] at hquoting
    simp only [Comment.passed]
    split
    · exact hstay _
    · rcases Block.outer?_step s c with h | h | ⟨hdepth, hcode, hc, houter⟩
      · exact Or.inl h
      · exact Or.inr (Or.inl h)
      · have hq : q = code := hquoting.symm.trans hcode
        exact Or.inr (Or.inr ⟨hdepth, by rw [hq]; rfl, hc, houter⟩)
  | slash =>
    rw [hp] at hquoting
    obtain ⟨hdepth, houter, hcode, hline⟩ := Block.step_slash hquoting
    simp only [Comment.passed]
    split_ifs with hstar hslash
    · exact hstay _
    · show (Block.step s '/').place.depth = 0 ∨ _ ∧ (Block.step s '/').place.outer? = _ ∨ _
      rw [hdepth, houter]
      exact hstay _
    · have h := Block.outer?_step (Block.step s '/') c
      rw [hdepth, houter, hline] at h
      exact h.imp_right (Or.imp_right fun h => ⟨h.1, rfl, h.2.2⟩)
  | comment o | star o =>
    simp only [Comment.passed]
    split
    · rename_i hc
      rcases Block.outer?_step s c with h | h | ⟨-, -, hbrace, -⟩
      · exact Or.inl h
      · exact Or.inr (Or.inl h)
      · rw [hc] at hbrace
        cases hbrace
    · exact hstay _

/-- the brace between `u` and `v` opens a block, and nothing in `v` closes it -/
structure StaysOpen (u v : Text) : Prop where
  opens : (Comment.run (Comment.start 1) u).place.inCode = true
  deeper : ∀ w, w <+: v → depth u < depth (u ++ '{' :: w)

/-- **A text that ends deeper than zero has an outermost brace that stays open**, and the scan has its line. -/
theorem exists_outermost (line : Nat) {t : Text} (h : 0 < depth t) :
    ∃ u v, t = u ++ '{' :: v ∧ StaysOpen u v ∧ depth u = 0 ∧
      (scanned line t).place.outer? = some (line + newlines u) := by
  induction t using List.reverseRecOn with
  | nil => exact absurd h (by decide)
  | append_singleton t c ih =>
    rcases outer?_concat line t c with hzero | ⟨hdepth, houter⟩ | ⟨hdepth, hcode, rfl, houter⟩
    · omega
    · obtain ⟨u, v, rfl, ⟨hopens, hdeeper⟩, hu, hline⟩ := ih (Nat.pos_of_ne_zero hdepth)
      refine ⟨u, v ++ [c], by simp, ⟨hopens, fun w hw => ?_⟩, hu, houter.trans hline⟩
      rcases List.prefix_concat_iff.1 hw with rfl | hw
      · rw [hu]
        simpa using h
      · exact hdeeper w hw
    · refine ⟨t, [], rfl, ⟨hcode, fun w hw => ?_⟩, hdepth, houter⟩
      rw [List.prefix_nil.1 hw, hdepth]
      exact h

end Stylesheet

end StyleCheck
