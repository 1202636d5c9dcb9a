/-
Selectors defined more than once, and what a merge folds.

Two loops group the rules of a stylesheet by selector: one lists the lines of the definitions of each selector, the
other, a merge of the stylesheet alone, keeps one rule for each. Both list the selectors in order of first definition,
so they differ by what the first lists more than once.
- `addLine_grouped`: one more rule keeps the groups what they are; `definitions_eq`: so does every stylesheet;
- `sum_lengths`: every definition is in one group;
- `oneLayer_apply`, `oneLayer_run`: rules of one layer never contest each other;
- `duplicates_exact`: the duplicates of a stylesheet, and that they account for every rule that a merge folds.
-/
import Mathlib.Algebra.GroupWithZero.Nat
import StyleCheck.Analysis
import StyleCheck.Proofs.Cascade.Settled

namespace StyleCheck

open Distinct

namespace DuplicateSelector

/-- the lines of the definitions of a selector, in document order -/
def linesOf (rules : List Rule) (selector : Text) : List Nat :=
  (rules.filter fun r => r.selector = selector).map (·.line)

/-- every selector once, in order of first definition, with the lines of its definitions -/
def grouped (rules : List Rule) : List (Text × List Nat) :=
  (rules.map (·.selector)).eraseDups.map fun selector => (selector, linesOf rules selector)

theorem linesOf_concat (rules : List Rule) (r : Rule) (selector : Text) :
    linesOf (rules ++ [r]) selector = linesOf rules selector ++ if r.selector = selector then [r.line] else [] := by
  by_cases h : r.selector = selector <;> simp [linesOf, h]

theorem length_linesOf (rules : List Rule) (selector : Text) :
    (linesOf rules selector).length = (rules.map (·.selector)).count selector := by
  unfold linesOf
  rw [List.length_map, ← List.countP_eq_length_filter, List.count_eq_countP, List.countP_map]
  apply List.countP_congr
  intro r _
  simp

/-! ## One more definition -/

variable {selector : Text} {line : Nat}

/-- a selector without a group gets one behind all others -/
theorem addLine_of_not_mem {groups : List (Text × List Nat)} (h : selector ∉ groups.map (·.1)) :
    addLine selector line groups = groups ++ [(selector, [line])] := by
  induction groups with
  | nil => rfl
  | cons g groups ih =>
    obtain ⟨hg, hgroups⟩ := not_or.1 (List.mem_cons.not.1 h)
    have hne : g.1 ≠ selector := fun he => hg he.symm
    rw [addLine, if_neg hne, ih hgroups]
    rfl

/-- a selector with a group gets its line there, and no other group changes -/
theorem addLine_of_mem {selectors : List Text} (hnodup : selectors.Nodup) (h : selector ∈ selectors)
    (lines : Text → List Nat) :
    addLine selector line (selectors.map fun s => (s, lines s)) =
      selectors.map fun s => (s, lines s ++ if selector = s then [line] else []) := by
  induction selectors with
  | nil => cases h
  | cons s selectors ih =>
    obtain ⟨hs, hnodup⟩ := List.nodup_cons.1 hnodup
    rw [List.map_cons, List.map_cons, addLine]
    by_cases he : s = selector
    · have hrest : ∀ s' ∈ selectors, (s', lines s') = (s', lines s' ++ if selector = s' then [line] else []) := by
        intro s' hs'
        have hne : selector ≠ s' := by
          rintro rfl
          exact hs (he ▸ hs')
        rw [if_neg hne, List.append_nil]
      rw [if_pos he, if_pos he.symm, List.map_congr_left hrest]
    · have hmem : selector ∈ selectors := (List.mem_cons.1 h).resolve_left fun h' => he h'.symm
      have hne : selector ≠ s := fun h' => he h'.symm
      rw [if_neg he, ih hnodup hmem, if_neg hne, List.append_nil]

/-- **One more rule** goes to the group of its selector. -/
theorem addLine_grouped (rules : List Rule) (r : Rule) :
    addLine r.selector r.line (grouped rules) = grouped (rules ++ [r]) := by
  have hgroups : grouped (rules ++ [r]) = ((rules ++ [r]).map (·.selector)).eraseDups.map fun s =>
      (s, linesOf rules s ++ if r.selector = s then [r.line] else []) := by
    unfold grouped
    apply List.map_congr_left
    intro s _
    rw [linesOf_concat]
  rw [hgroups, List.map_append, List.map_singleton, eraseDups_concat]
  split
  · rename_i hmem
    exact addLine_of_mem (nodup_eraseDups _) (List.mem_eraseDups.2 hmem) (linesOf rules)
  · rename_i hnew
    have hnone : linesOf rules r.selector = [] := by
      rw [← List.length_eq_zero_iff, length_linesOf, List.count_eq_zero]
      exact hnew
    have hold : ∀ s ∈ (rules.map (·.selector)).eraseDups,
        (s, linesOf rules s ++ if r.selector = s then [r.line] else []) = (s, linesOf rules s) := by
      intro s hs
      have hne : r.selector ≠ s := by
        rintro rfl
        exact hnew (List.mem_eraseDups.1 hs)
      rw [if_neg hne, List.append_nil]
    have hkeys : r.selector ∉ (grouped rules).map (·.1) := by
      simpa [grouped, Function.comp_def] using hnew
    rw [addLine_of_not_mem hkeys, List.map_append, List.map_congr_left hold, List.map_singleton, hnone, if_pos rfl]
    rfl

/-- **The definitions of a stylesheet** are its rules, grouped by selector. -/
theorem definitions_eq (s : Stylesheet) : definitions s = grouped s.rules := by
  unfold definitions
  induction s.rules using List.reverseRecOn with
  | nil => rfl
  | append_singleton rules r ih => rw [List.foldl_append, ih, List.foldl_cons, List.foldl_nil, addLine_grouped]

/-! ## Every definition is in one group -/

theorem sum_addLine (groups : List (Text × List Nat)) :
    ((addLine selector line groups).map (·.2.length)).sum = (groups.map (·.2.length)).sum + 1 := by
  induction groups with
  | nil => rfl
  | cons g groups ih =>
    unfold addLine
    split
    · simp only [List.map_cons, List.sum_cons, List.length_append, List.length_singleton]
      omega
    · simp only [List.map_cons, List.sum_cons, ih]
      omega

theorem sum_lengths (rules : List Rule) : ((grouped rules).map (·.2.length)).sum = rules.length := by
  induction rules using List.reverseRecOn with
  | nil => rfl
  | append_singleton rules r ih => rw [← addLine_grouped, sum_addLine, ih, List.length_append, List.length_singleton]

/-- what groups hold besides one line each is what those with a second line hold besides one -/
theorem sum_excess {groups : List (Text × List Nat)} (h : ∀ g ∈ groups, 0 < g.2.length) :
    groups.length + ((groups.filter fun g => 1 < g.2.length).map fun g => g.2.length - 1).sum =
      (groups.map (·.2.length)).sum := by
  induction groups with
  | nil => rfl
  | cons g groups ih =>
    obtain ⟨hg, hgroups⟩ := List.forall_mem_cons.1 h
    have hrest := ih hgroups
    by_cases hone : 1 < g.2.length
    · rw [List.filter_cons_of_pos (by simpa using hone)]
      simp only [List.length_cons, List.map_cons, List.sum_cons]
      omega
    · rw [List.filter_cons_of_neg (by simpa using hone)]
      simp only [List.length_cons, List.map_cons, List.sum_cons]
      omega

theorem pos_of_mem_grouped {rules : List Rule} {g : Text × List Nat} (h : g ∈ grouped rules) : 0 < g.2.length := by
  obtain ⟨s, hs, rfl⟩ := List.mem_map.1 h
  rw [length_linesOf, List.count_pos_iff]
  exact List.mem_eraseDups.1 hs

end DuplicateSelector

/-! ## A merge of one layer -/

namespace Cascade

/-- every slot was filled by layer `n`, and nothing was contested -/
structure OneLayer (n : Nat) (st : St) : Prop where
  layers : ∀ s ∈ st.slots, s.layer = n
  uncontested : st.contests = []

theorem oneLayer_apply {n : Nat} {st : St} (h : OneLayer n st) (r : Rule) : OneLayer n (apply n st r) := by
  obtain ⟨hlayers, huncontested⟩ := h
  unfold apply
  split
  · refine ⟨?_, huncontested⟩
    intro s hs
    rcases List.mem_append.1 hs with hs | hs
    · exact hlayers s hs
    · rw [List.mem_singleton.1 hs]
  · rename_i s hfound
    have hs : s.layer = n := hlayers s (List.mem_of_find?_eq_some hfound)
    refine ⟨?_, ?_⟩
    · intro t ht
      obtain ⟨t', ht', rfl⟩ := List.mem_map.1 ht
      split
      · rfl
      · exact hlayers t' ht'
    · simp only [contested, if_pos hs, huncontested]
      rfl

theorem oneLayer_run {n : Nat} {st : St} (h : OneLayer n st) (rules : List Rule) :
    OneLayer n (rules.foldl (apply n) st) := by
  induction rules generalizing st with
  | nil => exact h
  | cons r rules ih => exact ih (oneLayer_apply h r)

/-- **Rules of one layer never contest each other.** -/
theorem conflicts_layer (rules : List Rule) : (merge [rules]).conflicts = [] := by
  have hstart : OneLayer 0 start := ⟨by simp [start], rfl⟩
  have hdone := (oneLayer_run hstart rules).uncontested
  show (rules.foldl (apply 0) start).contests.map (·.conflict) = []
  rw [hdone]
  rfl

theorem length_merge (rules : List Rule) : (merge [rules]).rules.length = (DuplicateSelector.grouped rules).length := by
  have hselectors := (settled_merge [rules]).selectors
  rw [List.flatten_singleton] at hselectors
  rw [← List.length_map (·.selector), hselectors, DuplicateSelector.grouped, List.length_map]

end Cascade

/-- **Duplicates account for every rule that a merge folds.** They are the selectors with at least two definitions, in
order of first definition, each with the lines of all of them in document order; and a merge of the stylesheet alone
has one rule less for every line of a duplicate but the first, and no conflict. -/
theorem DuplicateSelector.duplicates_exact (s : Stylesheet) :
    ofSheet s = ((s.rules.map (·.selector)).eraseDups.filter fun x => 2 ≤ (s.rules.map (·.selector)).count x).map
      (fun x => ⟨s.source, x, (s.rules.filter fun r => r.selector = x).map (·.line)⟩) ∧
    (Cascade.merge [s.rules]).rules.length + ((ofSheet s).map fun d => d.lines.length - 1).sum = s.rules.length ∧
    (Cascade.merge [s.rules]).conflicts = [] := by
  have hsheet : ofSheet s = ((grouped s.rules).filter fun g => 1 < g.2.length).map fun g => ⟨s.source, g.1, g.2⟩ := by
    rw [← definitions_eq]
    rfl
  refine ⟨?_, ?_, Cascade.conflicts_layer s.rules⟩
  · have htwice : ∀ x ∈ (s.rules.map (·.selector)).eraseDups,
        decide (1 < (linesOf s.rules x).length) = decide (2 ≤ (s.rules.map (·.selector)).count x) := by
      intro x _
      rw [length_linesOf]
      rfl
    rw [hsheet, grouped, List.filter_map, List.map_map]
    exact congrArg _ (List.filter_congr htwice)
  · have hlines : (ofSheet s).map (fun d => d.lines.length - 1) =
        ((grouped s.rules).filter fun g => 1 < g.2.length).map fun g => g.2.length - 1 := by
      rw [hsheet, List.map_map]
      rfl
    calc (Cascade.merge [s.rules]).rules.length + ((ofSheet s).map fun d => d.lines.length - 1).sum
        = (grouped s.rules).length +
            (((grouped s.rules).filter fun g => 1 < g.2.length).map fun g => g.2.length - 1).sum := by
          rw [Cascade.length_merge, hlines]
      _ = ((grouped s.rules).map (·.2.length)).sum := sum_excess fun g hg => pos_of_mem_grouped hg
      _ = s.rules.length := sum_lengths s.rules

end StyleCheck
