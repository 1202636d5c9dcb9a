/-
Comparisons of identifiers partition names.

A name of the reference is missing if it is counted zero times in the present, and a name of the present is extra if the
reference does not list it. These are two tests, and they agree because no name is listed without having been counted.
So each list of a report is the names of one side, filtered by whether the other side has them (`preserved_eq`,
`missing_eq`, `extra_eq`), and comparing the other way round exchanges the lists.
- `missing_eq_extra`, `preserved_perm`: the duality, in one category;
- `aggregate_exact`: what the aggregate says of names that are missing;
- `compare_partition`: the whole comparison, in every selected category.
-/
import Mathlib.Algebra.GroupWithZero.Nat
import StyleCheck.Integrity.Comparison
import StyleCheck.Proofs.Identifier.Tallies
import StyleCheck.Proofs.Integrity.Rounding

namespace StyleCheck

/-! ## Tallies by name -/

namespace Tally

variable {α : Type} [DecidableEq α] {t : Tally α}

/-- the entries are the names with their counts -/
theorem entries_eq (h : t.names.Nodup) : t.entries = t.names.map fun a => (a, t.count a) := by
  have hcounts : t.entries.map (fun e => (e.1, t.count e.1)) = t.entries.map id :=
    List.map_congr_left fun e he => Prod.ext rfl (count_of_mem h he)
  rw [names, List.map_map]
  exact ((List.map_id _).symm.trans hcounts.symm)

theorem filter_entries (h : t.names.Nodup) (p : α → Bool) :
    t.entries.filter (fun e => p e.1) = (t.names.filter p).map fun a => (a, t.count a) := by
  rw [entries_eq h, List.filter_map]
  rfl

/-- **A name is counted if and only if it is listed.** -/
theorem Of.counted [BEq α] [LawfulBEq α] {l : List α} (h : t.Of l) (a : α) : (t.count a != 0) = t.contains a := by
  rw [Bool.eq_iff_iff, bne_iff_ne, contains_iff, h.count, h.names, List.mem_eraseDups, ← List.count_pos_iff]
  exact Nat.pos_iff_ne_zero.symm

end Tally

/-! ## One category -/

/-- the name seen from the other side -/
def PreservedName.swap (p : PreservedName) : PreservedName := ⟨p.name, p.currentCount, p.referenceCount⟩

namespace CategoryReport

section
variable (k : Category) {r c : Tally Text} {l m : List Text} (hr : r.Of l) (hc : c.Of m)

include hr

/-- names that only the present has, in its order -/
theorem extra_eq : (compute k c r).extra = (r.names.filter (!c.contains ·)).map fun n => ⟨n, r.count n⟩ := by
  unfold compute
  simp only
  rw [Tally.filter_entries hr.nodup (!c.contains ·), List.map_map]
  rfl

include hc

/-- names on both sides, in the order of the reference -/
theorem preserved_eq :
    (compute k r c).preserved = (r.names.filter c.contains).map fun n => ⟨n, r.count n, c.count n⟩ := by
  unfold compute
  simp only [List.partition_eq_filter_filter, hc.counted]
  rw [Tally.filter_entries hr.nodup c.contains, List.map_map]
  rfl

/-- names that only the reference has, in its order -/
theorem missing_eq : (compute k r c).missing = (r.names.filter (!c.contains ·)).map fun n => ⟨n, r.count n⟩ := by
  unfold compute
  simp only [List.partition_eq_filter_filter, hc.counted]
  exact (congrArg _ (Tally.filter_entries hr.nodup (!c.contains ·))).trans List.map_map

/-- **What is missing in one direction is extra in the other.** -/
theorem missing_eq_extra : (compute k r c).missing = (compute k c r).extra := by
  rw [missing_eq k hr hc, extra_eq k hr]

/-- **What is preserved in one direction is preserved in the other**, with the counts exchanged. -/
theorem preserved_perm : (compute k r c).preserved.Perm ((compute k c r).preserved.map PreservedName.swap) := by
  rw [preserved_eq k hr hc, preserved_eq k hc hr, List.map_map]
  have hperm : (r.names.filter c.contains).Perm (c.names.filter r.contains) := by
    refine (List.perm_ext_iff_of_nodup (hr.nodup.filter _) (hc.nodup.filter _)).2 fun n => ?_
    simp only [List.mem_filter, Tally.contains_iff, and_comm]
  exact hperm.map _

/-- the names of the reference are preserved or missing -/
theorem names_perm :
    ((compute k r c).preserved.map (·.name) ++ (compute k r c).missing.map (·.name)).Perm r.names := by
  rw [preserved_eq k hr hc, missing_eq k hr hc, List.map_map, List.map_map]
  have hid (l : List Text) : l.map (fun n => n) = l := List.map_id l
  simpa [Function.comp_def, hid] using List.filter_append_perm c.contains r.names

theorem referenceTotal_eq : (compute k r c).referenceTotal = r.names.length := by
  have h := (names_perm k hr hc).length_eq
  rw [List.length_append, List.length_map, List.length_map] at h
  exact h

end

/-- nothing is missing if and only if the present has every name -/
theorem missing_eq_nil (k : Category) {r c : Tally Text} {l m : List Text} (hr : r.Of l) (hc : c.Of m) :
    (compute k r c).missing = [] ↔ ∀ n, r.contains n = true → c.contains n = true := by
  rw [missing_eq k hr hc, List.map_eq_nil_iff, List.filter_eq_nil_iff]
  simp only [Bool.not_eq_true', Bool.not_eq_false, Tally.contains_iff]

/-- **Compared with itself, a tally loses, gains and changes nothing.** -/
theorem compute_self (k : Category) {r : Tally Text} {l : List Text} (hr : r.Of l) :
    (compute k r r).missing = [] ∧ (compute k r r).extra = [] ∧ (compute k r r).changes = [] := by
  have hmissing : (compute k r r).missing = [] := (missing_eq_nil k hr hr).2 fun _ h => h
  refine ⟨hmissing, (missing_eq_extra k hr hr).symm.trans hmissing, ?_⟩
  unfold changes
  rw [preserved_eq k hr hr, List.filter_eq_nil_iff]
  intro p hp
  obtain ⟨n, -, rfl⟩ := List.mem_map.1 hp
  simp

end CategoryReport

/-! ## Selected categories -/

namespace PreservationReport

open IdentifierSet (Built)

variable (r c : IdentifierSet) (selected : CategorySet)

theorem categories_compare :
    (compare r c selected).categories =
      selected.categories.map fun k => CategoryReport.compute k (r.tally k) (c.tally k) := rfl

theorem mem_categories {k : Category} : k ∈ selected.categories ↔ selected.get k = true := by
  simp [CategorySet.categories, Category.mem_all]

/-- the report of a selected category -/
theorem category?_compare {k : Category} (h : selected.get k = true) :
    (compare r c selected).category? k = some (.compute k (r.tally k) (c.tally k)) := by
  have hfind : selected.categories.find? (· = k) = some k := by
    cases hk : selected.categories.find? (· = k) with
    | none => exact absurd (List.find?_eq_none.1 hk k ((mem_categories selected).2 h)) (by simp)
    | some k' => rw [show k' = k by simpa using List.find?_some hk]
  unfold category?
  rw [categories_compare, List.find?_map]
  exact congrArg (Option.map _) hfind

theorem total_eq (ds : List CategoryReport) :
    (ds.flatMap (·.preserved)).length + (ds.flatMap (·.missing)).length = (ds.map (·.referenceTotal)).sum := by
  induction ds with
  | nil => rfl
  | cons d ds ih =>
    have hd : d.referenceTotal = d.preserved.length + d.missing.length := rfl
    rw [List.flatMap_cons, List.flatMap_cons, List.length_append, List.length_append, List.map_cons, List.sum_cons, ← ih,
      hd]
    omega

/-- **There is no aggregate if and only if the reference has no selected name.** If it has some the aggregate is 100 per
cent when none of them is missing, and with fewer than 2000 names only then. -/
theorem aggregate_exact :
    let there := compare r c selected
    let names := (there.categories.map (·.referenceTotal)).sum
    (there.aggregate = .noData ↔ names = 0) ∧
    (names ≠ 0 → there.totalMissing = 0 → there.aggregate = .percent 1000) ∧
    (names ≠ 0 → names < 2000 → there.aggregate = .percent 1000 → there.totalMissing = 0) := by
  intro there names
  have hnames : (there.categories.flatMap (·.preserved)).length + there.totalMissing = names := total_eq there.categories
  have haggregate : there.aggregate = .ofCounts (there.categories.flatMap (·.preserved)).length names :=
    congrArg (Score.ofCounts _) hnames
  rw [haggregate]
  refine ⟨Score.ofCounts_eq_noData_iff, ?_, ?_⟩
  · intro hsome hnone
    have hall : (there.categories.flatMap (·.preserved)).length = names := by omega
    rw [hall]
    exact Score.ofCounts_self hsome
  · intro hsome hfew hfull
    have hall := (Score.ofCounts_eq_full_iff (by omega) hsome hfew).1 hfull
    omega

variable {r c}

/-- **Comparisons are exact and dual.** There is one report for each selected category. In it the names of the reference
are split, each once and in the order in which the reference met them, into those that the present has, with both
counts, and those that it has not; names that only the present has follow its own order. Comparing the other way round
exchanges missing and extra names and the two counts of the preserved ones. Nothing is missing if and only if the present
has every selected name, the aggregate is computed from the sums over the categories, and compared with itself a set
loses, gains and changes nothing. -/
theorem compare_partition (hr : Built r) (hc : Built c) :
    let there := compare r c selected
    let back := compare c r selected
    there.categories.map (·.category) = Category.all.filter selected.get ∧
    (∀ k, selected.get k = true → ∃ d e, there.category? k = some d ∧ back.category? k = some e ∧
      d.preserved = ((r.tally k).names.filter (c.contains k)).map (fun n => ⟨n, r.count k n, c.count k n⟩) ∧
      d.missing = ((r.tally k).names.filter (!c.contains k ·)).map (fun n => ⟨n, r.count k n⟩) ∧
      d.extra = ((c.tally k).names.filter (!r.contains k ·)).map (fun n => ⟨n, c.count k n⟩) ∧
      (d.preserved.map (·.name) ++ d.missing.map (·.name)).Perm (r.tally k).names ∧
      (r.tally k).names.Nodup ∧
      d.referenceTotal = (r.tally k).names.length ∧
      d.missing = e.extra ∧ d.extra = e.missing ∧ d.preserved.Perm (e.preserved.map PreservedName.swap)) ∧
    (there.totalMissing = 0 ↔ ∀ k, selected.get k = true → ∀ n, r.contains k n = true → c.contains k n = true) ∧
    there.aggregate =
      .ofCounts (there.categories.map (·.preserved.length)).sum (there.categories.map (·.referenceTotal)).sum ∧
    ∀ d ∈ (compare r r selected).categories, d.missing = [] ∧ d.extra = [] ∧ d.changes = [] := by
  intro there back
  have hr := IdentifierSet.agrees_of_built hr
  have hc := IdentifierSet.agrees_of_built hc
  refine ⟨?_, ?_, ?_, ?_, ?_⟩
  · rw [categories_compare, List.map_map]
    exact List.map_id _
  · intro k hk
    refine ⟨_, _, category?_compare r c selected hk, category?_compare c r selected hk, ?_⟩
    exact ⟨CategoryReport.preserved_eq k (hr k) (hc k), CategoryReport.missing_eq k (hr k) (hc k),
      CategoryReport.extra_eq k (hc k), CategoryReport.names_perm k (hr k) (hc k), (hr k).nodup,
      CategoryReport.referenceTotal_eq k (hr k) (hc k), CategoryReport.missing_eq_extra k (hr k) (hc k),
      (CategoryReport.missing_eq_extra k (hc k) (hr k)).symm, CategoryReport.preserved_perm k (hr k) (hc k)⟩
  · have hnone : there.totalMissing = 0 ↔ ∀ d ∈ there.categories, d.missing = [] := by
      unfold totalMissing
      rw [List.length_eq_zero_iff, List.flatMap_eq_nil_iff]
    rw [hnone, categories_compare, List.forall_mem_map]
    refine forall_congr' fun k => ?_
    rw [mem_categories, CategoryReport.missing_eq_nil k (hr k) (hc k)]
    rfl
  · rw [← total_eq, ← List.length_flatMap]
    rfl
  · rw [categories_compare, List.forall_mem_map]
    exact fun k _ => CategoryReport.compute_self k (hr k)

/-- a sheet -/
def referenceSet : IdentifierSet :=
  (Stylesheet.parse {} ⟨0⟩ ".b .a#i\x7b--c:d\x7d.b\x7b--c:e\x7d.k\x7bf:var(--g)\x7d".toList).identifiers {} []

/-- a script and a class recorded by hand -/
def presentSet : IdentifierSet :=
  .reduce [Script.scan ⟨1⟩ "x.className = 'g b';".toList,
    (IdentifierSet.empty .stylesheet).record ⟨.className, "k".toList, ⟨2⟩, 7, []⟩]

theorem compare_partition_sheet :
    let there := compare referenceSet presentSet .all
    let back := compare presentSet referenceSet .all
    Built referenceSet ∧ Built presentSet ∧
    there.categories.map (·.category) = [.className, .id, .property, .keyframe, .animation] ∧
    (∃ d e, there.category? .className = some d ∧ back.category? .className = some e ∧
      d.preserved = [⟨"b".toList, 2, 1⟩, ⟨"k".toList, 1, 1⟩] ∧ d.missing = [⟨"a".toList, 1⟩] ∧
      d.extra = [⟨"g".toList, 1⟩] ∧ d.referenceTotal = 3 ∧
      d.missing = e.extra ∧ d.extra = e.missing ∧ d.preserved.Perm (e.preserved.map PreservedName.swap)) ∧
    there.totalMissing ≠ 0 ∧ there.aggregate = .percent 333 ∧
    ∀ d ∈ (compare referenceSet referenceSet .all).categories, d.missing = [] ∧ d.extra = [] ∧ d.changes = [] := by
  intro there back
  have href : Built referenceSet := .stylesheet _ _ _
  have hpres : Built presentSet := by
    refine .reduce ?_
    simp only [List.forall_mem_cons]
    exact ⟨.script _ _, .record _ (.empty _), by simp⟩
  obtain ⟨hcategories, heach, htotal, haggregate, hself⟩ := compare_partition .all href hpres
  obtain ⟨d, e, hd, he, hpreserved, hmissing, hextra, -, -, hcount, hdual⟩ := heach .className rfl
  refine ⟨href, hpres, hcategories, ⟨d, e, hd, he, hpreserved.trans ?_, hmissing.trans ?_, hextra.trans ?_,
    hcount.trans ?_, hdual⟩, fun h => ?_, haggregate.trans ?_, hself⟩
  · decide +kernel
  · decide +kernel
  · decide +kernel
  · decide +kernel
  · exact absurd (htotal.1 h .className rfl "a".toList (by decide +kernel)) (by decide +kernel)
  · decide +kernel

end PreservationReport

end StyleCheck
