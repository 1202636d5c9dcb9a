/-
The cross-check of animations is algebra of sets.

Its three lists are sorted, so which names they hold decides what they are; and which names a set of identifiers holds
does not depend on the order of the sources it was combined from.
- `sortedNames_ascending`: a sorted list of distinct names ascends, in code points and in bytes (`Ascending`);
- `sortedNames_congr`: names listed in another order are sorted to the same list;
- `bindings_perm`: the cross-check of stylesheets in any order, as a partition of the names used and of the names
  defined, with a located finding for every use of a name without a definition.
-/
import Mathlib.Data.List.Nodup
import StyleCheck.Audit.Run
import StyleCheck.Proofs.Identifier.Tallies
import StyleCheck.Proofs.Text.Order

namespace StyleCheck

open Text

/-! ## Sorted names -/

theorem sortedNames_perm (names : List Text) : (sortedNames names).Perm names := List.mergeSort_perm _ _

@[simp] theorem mem_sortedNames {names : List Text} {n : Text} : n ∈ sortedNames names ↔ n ∈ names :=
  (sortedNames_perm names).mem_iff

theorem sortedNames_pairwise {names : List Text} (h : names.Nodup) : (sortedNames names).Pairwise (· < ·) := by
  have hle : (sortedNames names).Pairwise fun a b => (!decide (b < a)) = true := by
    refine List.pairwise_mergeSort (fun a b c hab hbc => ?_) (fun a b => ?_) names
    · simp only [Bool.not_eq_true', decide_eq_false_iff_not, not_lt] at *
      exact hab.trans hbc
    · simp only [Bool.or_eq_true, Bool.not_eq_true', decide_eq_false_iff_not, not_lt]
      exact le_total a b
  have hnodup : (sortedNames names).Nodup := (sortedNames_perm names).nodup_iff.2 h
  refine (hle.and hnodup).imp fun {a b} ⟨hab, hne⟩ => ?_
  simp only [Bool.not_eq_true', decide_eq_false_iff_not, not_lt] at hab
  exact lt_of_le_of_ne hab hne

/-- **Sorted names ascend**, each of them once. -/
theorem sortedNames_ascending {names : List Text} (h : names.Nodup) : Ascending (sortedNames names) :=
  ascending_of_pairwise (sortedNames_pairwise h)

/-- **Names are sorted to one list**, in whatever order they come. -/
theorem sortedNames_congr {l m : List Text} (hl : l.Nodup) (hm : m.Nodup) (h : ∀ n, n ∈ l ↔ n ∈ m) :
    sortedNames l = sortedNames m := by
  have hperm : l.Perm m := (List.perm_ext_iff_of_nodup hl hm).2 h
  have hsorted : (sortedNames l).Perm (sortedNames m) :=
    (sortedNames_perm l).trans (hperm.trans (sortedNames_perm m).symm)
  exact hsorted.eq_of_pairwise (fun a b _ _ hab hba => absurd hba (lt_asymm hab))
    (sortedNames_pairwise hl) (sortedNames_pairwise hm)

/-! ## The cross-check of a set -/

namespace Bindings

variable (s : IdentifierSet) {n : Text}

theorem mem_matched : n ∈ (ofSet s).matched ↔ n ∈ (s.tally .animation).names ∧ n ∈ (s.tally .keyframe).names := by
  simp only [ofSet, mem_sortedNames, List.mem_filter, Tally.contains_iff]

theorem mem_missing : n ∈ (ofSet s).missing ↔ n ∈ (s.tally .animation).names ∧ n ∉ (s.tally .keyframe).names := by
  simp only [ofSet, mem_sortedNames, List.mem_filter, Bool.not_eq_true', ← Bool.not_eq_true, Tally.contains_iff]

theorem mem_unused : n ∈ (ofSet s).unused ↔ n ∈ (s.tally .keyframe).names ∧ n ∉ (s.tally .animation).names := by
  simp only [ofSet, mem_sortedNames, List.mem_filter, Bool.not_eq_true', ← Bool.not_eq_true, Tally.contains_iff]

variable {s}

theorem ascending (h : s.Agrees) :
    Ascending (ofSet s).matched ∧ Ascending (ofSet s).missing ∧ Ascending (ofSet s).unused :=
  ⟨sortedNames_ascending ((h _).nodup.filter _), sortedNames_ascending ((h _).nodup.filter _),
    sortedNames_ascending ((h _).nodup.filter _)⟩

/-- the lists depend on the names of the set only -/
theorem ofSet_congr {s' : IdentifierSet} (h : s.Agrees) (h' : s'.Agrees)
    (hnames : ∀ c n, n ∈ (s.tally c).names ↔ n ∈ (s'.tally c).names) :
    (ofSet s).matched = (ofSet s').matched ∧ (ofSet s).missing = (ofSet s').missing ∧
      (ofSet s).unused = (ofSet s').unused := by
  have hd := (h .animation).nodup
  have hd' := (h' .animation).nodup
  refine ⟨sortedNames_congr (hd.filter _) (hd'.filter _) fun n => ?_,
    sortedNames_congr (hd.filter _) (hd'.filter _) fun n => ?_,
    sortedNames_congr ((h .keyframe).nodup.filter _) ((h' .keyframe).nodup.filter _) fun n => ?_⟩ <;>
  simp only [List.mem_filter, Bool.not_eq_true', ← Bool.not_eq_true, Tally.contains_iff, hnames]

end Bindings

/-! ## Stylesheets -/

namespace Analysis

open Audit (Check)

variable (config : AnalysisConfig) {sheets sheets' : List Stylesheet}

/-- the names that stylesheets hold do not depend on their order -/
theorem mem_names_perm (h : sheets.Perm sheets') (c : Category) (n : Text) :
    n ∈ ((analyze config sheets).identifiers.tally c).names ↔
      n ∈ ((analyze config sheets').identifiers.tally c).names := by
  have hsets : (analyze config sheets).perSheet.Perm (analyze config sheets').perSheet := h.map _
  change n ∈ ((IdentifierSet.reduce (analyze config sheets).perSheet).tally c).names ↔
    n ∈ ((IdentifierSet.reduce (analyze config sheets').perSheet).tally c).names
  rw [IdentifierSet.mem_names_reduce (agrees_perSheet config sheets),
    IdentifierSet.mem_names_reduce (agrees_perSheet config sheets')]
  exact exists_congr fun s => and_congr_left' hsets.mem_iff

/-- what the check of missing keyframes says of a use -/
theorem missingKeyframe_issues {a : Analysis} (h : a.bindings = .ofSet a.identifiers) :
    (Check.missingKeyframe.issues a).map (fun i => (i.check, i.message, i.location)) =
      (a.identifiers.occurrences.filter fun o => o.category = .animation ∧ o.name ∈ a.bindings.missing).map fun o =>
        (.missingKeyframe, s!"Animation '{String.ofList o.name}' has no @keyframes definition",
          some (o.source, o.line)) := by
  have huses : a.bindings.uses = a.identifiers.occurrences.filter (·.category = .animation) := by rw [h]; rfl
  unfold Check.issues Audit.missingKeyframes
  simp only [huses, List.map_map, List.filter_filter]
  refine congrArg _ (List.filter_congr fun o _ => ?_)
  simp [Bool.and_comm]

/-- **Cross-checks are algebra of sets.** The three lists do not depend on the order of the stylesheets, and each ascends
in bytes. Names used and defined and names used only make up the names used; names used and defined and names defined
only make up the names defined. Every use of a name without a definition is reported at its place, in the order of the
uses, and every such name has a use. -/
theorem bindings_perm (h : sheets.Perm sheets') :
    let a := analyze config sheets
    let b := analyze config sheets'
    (b.bindings.matched = a.bindings.matched ∧ b.bindings.missing = a.bindings.missing ∧
      b.bindings.unused = a.bindings.unused) ∧
    (Ascending a.bindings.matched ∧ Ascending a.bindings.missing ∧ Ascending a.bindings.unused) ∧
    (a.bindings.matched.Disjoint a.bindings.missing ∧
      ∀ n, n ∈ (a.identifiers.tally .animation).names ↔ n ∈ a.bindings.matched ∨ n ∈ a.bindings.missing) ∧
    (a.bindings.matched.Disjoint a.bindings.unused ∧
      ∀ n, n ∈ (a.identifiers.tally .keyframe).names ↔ n ∈ a.bindings.matched ∨ n ∈ a.bindings.unused) ∧
    (Check.missingKeyframe.issues a).map (fun i => (i.check, i.message, i.location)) =
      (a.identifiers.occurrences.filter fun o => o.category = .animation ∧ o.name ∈ a.bindings.missing).map (fun o =>
        (.missingKeyframe, s!"Animation '{String.ofList o.name}' has no @keyframes definition",
          some (o.source, o.line))) ∧
    ∀ n ∈ a.bindings.missing, ∃ o ∈ a.identifiers.occurrences, o.category = .animation ∧ o.name = n ∧
      ∃ i ∈ Check.missingKeyframe.issues a, i.location = some (o.source, o.line) := by
  intro a b
  have ha : a.identifiers.Agrees := agrees_identifiers config sheets
  have hissues := missingKeyframe_issues (a := a) rfl
  refine ⟨?_, Bindings.ascending ha, ⟨?_, fun n => ?_⟩, ⟨?_, fun n => ?_⟩, hissues, fun n hn => ?_⟩
  · exact Bindings.ofSet_congr (agrees_identifiers config sheets') ha fun c n => (mem_names_perm config h c n).symm
  · exact fun n hn hn' => ((Bindings.mem_missing _).1 hn').2 ((Bindings.mem_matched _).1 hn).2
  · change _ ↔ n ∈ (Bindings.ofSet a.identifiers).matched ∨ n ∈ (Bindings.ofSet a.identifiers).missing
    rw [Bindings.mem_matched, Bindings.mem_missing]
    tauto
  · exact fun n hn hn' => ((Bindings.mem_unused _).1 hn').2 ((Bindings.mem_matched _).1 hn).1
  · change _ ↔ n ∈ (Bindings.ofSet a.identifiers).matched ∨ n ∈ (Bindings.ofSet a.identifiers).unused
    rw [Bindings.mem_matched, Bindings.mem_unused]
    tauto
  · -- the name was recorded somewhere, and its entry there is one of those reported
    obtain ⟨o, ho, hc, rfl⟩ := (ha.mem_names_iff _ _).1 ((Bindings.mem_missing _).1 hn).1
    have huse : o ∈ a.bindings.uses := List.mem_filter.2 ⟨ho, decide_eq_true hc⟩
    have hkept : o ∈ a.bindings.uses.filter fun o => a.bindings.missing.contains o.name :=
      List.mem_filter.2 ⟨huse, List.contains_iff_mem.2 hn⟩
    exact ⟨o, ho, hc, rfl, _, List.mem_map_of_mem hkept, rfl⟩

/-- uses in two sheets and definitions in a third, sharing one name -/
def threeSheets : List Stylesheet :=
  [.parse {} ⟨0⟩ "a\x7banimation:spin 1s,b\x7d\nb\x7banimation-name:'gone'\x7d".toList,
    .parse {} ⟨1⟩ "@media c\x7b\nd\x7banimation:none gone\x7d\x7d".toList,
    .parse {} ⟨2⟩ "@keyframes spin\x7bto\x7b\x7d\x7d@keyframes idle\x7bto\x7b\x7d\x7d".toList]

theorem bindings_perm_three :
    let a := analyze {} threeSheets
    let b := analyze {} threeSheets.reverse
    threeSheets.Perm threeSheets.reverse ∧
    (b.bindings.matched = a.bindings.matched ∧ b.bindings.missing = a.bindings.missing ∧
      b.bindings.unused = a.bindings.unused) ∧
    "spin".toList ∈ a.bindings.matched ∧ "gone".toList ∈ a.bindings.missing ∧ "idle".toList ∈ a.bindings.unused ∧
    (Check.missingKeyframe.issues a).map (·.location) = [some (⟨0⟩, 2), some (⟨1⟩, 2)] := by
  intro a b
  have h : threeSheets.Perm threeSheets.reverse := (List.reverse_perm _).symm
  have hall := bindings_perm {} h
  refine ⟨h, hall.1, ?_, ?_, ?_, ?_⟩
  · exact (Bindings.mem_matched _).2 (by decide +kernel)
  · exact (Bindings.mem_missing _).2 (by decide +kernel)
  · exact (Bindings.mem_unused _).2 (by decide +kernel)
  · decide +kernel

end Analysis

end StyleCheck
