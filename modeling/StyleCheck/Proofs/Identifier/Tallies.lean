/-
Tallies and the lists they were recorded from.

A set of identifiers keeps two stores, one tally per category and one list of occurrences, and combines them
differently: entries are added up, lists are put one behind the other. They never drift apart.
- `Tally.Of`: a tally holds exactly the names of a list, each once, in the order in which they come first, with their
  numbers of occurrences; `Of.record` and `Of.absorb` keep it, for one more name and for a whole tally;
- `agrees_record`, `agrees_absorb`: so does what a set does, category by category;
- `mem_names_reduce`: a combined set holds the names of its parts;
- `tallies_agree`: in every set that is ever built, counts and occurrences say the same.
-/
import StyleCheck.Analysis
import StyleCheck.Script.Scan
import StyleCheck.Proofs.Distinct

namespace StyleCheck

open Distinct

/-! ## One tally -/

namespace Tally

variable {α : Type} [DecidableEq α]

/-- the count of an entry is that of its name, for names are listed once -/
theorem count_of_mem {t : Tally α} (h : t.names.Nodup) {e : α × Nat} (he : e ∈ t.entries) : t.count e.1 = e.2 := by
  obtain ⟨es⟩ := t
  unfold names at h
  unfold count
  induction es with
  | nil => cases he
  | cons x es ih =>
    obtain ⟨hx, hes⟩ := List.nodup_cons.1 h
    rcases List.mem_cons.1 he with rfl | he
    · simp
    · have hne : x.1 ≠ e.1 := fun heq => hx (List.mem_map.2 ⟨e, he, heq.symm⟩)
      rw [List.find?_cons_of_neg (by simpa using hne)]
      exact ih hes he

theorem count_of_not_mem {t : Tally α} {a : α} (h : a ∉ t.names) : t.count a = 0 := by
  have hnone : t.entries.find? (fun e => e.1 = a) = none := by
    rw [List.find?_eq_none]
    intro e he
    have hne : e.1 ≠ a := fun heq => h (List.mem_map.2 ⟨e, he, heq⟩)
    simpa using hne
  unfold count
  rw [hnone]
  rfl

theorem absorb_cons (t : Tally α) (e : α × Nat) (es : List (α × Nat)) :
    t.absorb ⟨e :: es⟩ = (t.add e.1 e.2).absorb ⟨es⟩ := rfl

/-- counts add up -/
theorem count_absorb (t other : Tally α) (h : other.names.Nodup) (a : α) :
    (t.absorb other).count a = t.count a + other.count a := by
  obtain ⟨es⟩ := other
  induction es generalizing t with
  | nil => rfl
  | cons e es ih =>
    obtain ⟨he, hes⟩ := List.nodup_cons.1 h
    rw [absorb_cons, ih _ hes, count_add]
    by_cases ha : a = e.1
    · have hrest : (⟨es⟩ : Tally α).count a = 0 := count_of_not_mem (ha ▸ he)
      rw [if_pos ha, hrest]
      simp [count, ha]
    · have hrest : (⟨e :: es⟩ : Tally α).count a = (⟨es⟩ : Tally α).count a := by
        unfold count
        rw [List.find?_cons_of_neg (by simpa using fun heq => ha heq.symm)]
      rw [if_neg ha, hrest, Nat.add_zero]

section
variable [BEq α] [LawfulBEq α]

/-- `t` counts the elements of `l` -/
structure Of (t : Tally α) (l : List α) : Prop where
  names : t.names = l.eraseDups
  count : ∀ a, t.count a = l.count a

theorem Of.nodup {t : Tally α} {l : List α} (h : t.Of l) : t.names.Nodup := by
  rw [h.names]
  exact nodup_eraseDups l

/-- no name is kept without an occurrence -/
theorem Of.positive {t : Tally α} {l : List α} (h : t.Of l) {e : α × Nat} (he : e ∈ t.entries) : 1 ≤ e.2 := by
  rw [← count_of_mem h.nodup he, h.count, Nat.succ_le_iff, List.count_pos_iff, ← List.mem_eraseDups, ← h.names]
  exact List.mem_map_of_mem he

/-- a new name is listed behind the others, as a new element is -/
theorem names_add_eq {t : Tally α} {l : List α} (h : t.names = l.eraseDups) (a : α) (n : Nat) :
    (t.add a n).names = (l ++ [a]).eraseDups := by
  rw [names_add, eraseDups_concat, h]
  simp only [List.mem_eraseDups]

/-- the names of two tallies, one behind the other -/
theorem names_absorb {t other : Tally α} {l m : List α} (h : t.names = l.eraseDups) (h' : other.names = m.eraseDups) :
    (t.absorb other).names = (l ++ m).eraseDups := by
  obtain ⟨es⟩ := other
  have hlisted : (t.absorb ⟨es⟩).names = (l ++ es.map (·.1)).eraseDups := by
    clear h'
    induction es generalizing t l with
    | nil => rwa [List.map_nil, List.append_nil]
    | cons e es ih =>
      rw [absorb_cons, ih (names_add_eq h e.1 e.2), List.append_assoc]
      rfl
  calc (t.absorb ⟨es⟩).names
      = (l ++ es.map (·.1)).eraseDups := hlisted
    _ = (l ++ m.eraseDups).eraseDups := by rw [← h']; rfl
    _ = (l ++ m).eraseDups := eraseDups_append_eraseDups l m

/-- **Recording a name counts one more element.** -/
theorem Of.record {t : Tally α} {l : List α} (h : t.Of l) (a : α) : (t.record a).Of (l ++ [a]) := by
  refine ⟨names_add_eq h.names a 1, fun b => ?_⟩
  rw [Tally.record, count_add, h.count, List.count_append, List.count_singleton]
  simp only [beq_iff_eq, eq_comm (a := a)]

/-- **Absorbing a tally counts the elements of both lists**, those of the second behind those of the first. -/
theorem Of.absorb {t other : Tally α} {l m : List α} (h : t.Of l) (h' : other.Of m) :
    (t.absorb other).Of (l ++ m) := by
  refine ⟨names_absorb h.names h'.names, fun a => ?_⟩
  rw [count_absorb t other h'.nodup, h.count, h'.count, List.count_append]

end

end Tally

/-! ## Sets -/

/-- the names that occur in a category, in the order of recording -/
def Occurrence.namesIn (c : Category) (os : List Occurrence) : List Text :=
  (os.filter fun o => o.category = c).map (·.name)

namespace IdentifierSet

open Occurrence

/-- every tally counts the occurrences of its category -/
def Agrees (s : IdentifierSet) : Prop := ∀ c, (s.tally c).Of (namesIn c s.occurrences)

/-- the sets that can be built -/
inductive Built : IdentifierSet → Prop where
  | empty (origin : Origin) : Built (empty origin)
  | record {s : IdentifierSet} (o : Occurrence) : Built s → Built (s.record o)
  | stylesheet (config : ParseConfig) (extra : List Text) (sheet : Stylesheet) :
      Built (sheet.identifiers config extra)
  | script (source : SourceId) (t : Text) : Built (Script.scan source t)
  | reduce {sets : List IdentifierSet} : (∀ s ∈ sets, Built s) → Built (reduce sets)

theorem agrees_empty (origin : Origin) : (empty origin).Agrees := by
  intro c
  rw [tally, empty, ByCategory.get_const]
  exact ⟨rfl, fun _ => rfl⟩

/-- **One more occurrence is one more name in its category**, and nothing in the others. -/
theorem agrees_record {s : IdentifierSet} (h : s.Agrees) (o : Occurrence) : (s.record o).Agrees := by
  intro c
  have hnames : namesIn c (s.record o).occurrences =
      namesIn c s.occurrences ++ if o.category = c then [o.name] else [] := by
    unfold namesIn record
    by_cases hc : o.category = c <;> simp [hc]
  have htally : (s.record o).tally c = if o.category = c then (s.tally c).record o.name else s.tally c :=
    ByCategory.get_modify _ _ _ _
  rw [hnames, htally]
  split
  · exact (h c).record o.name
  · rw [List.append_nil]
    exact h c

theorem agrees_ofOccurrences (origin : Origin) (os : List Occurrence) : (ofOccurrences origin os).Agrees := by
  unfold ofOccurrences
  induction os using List.reverseRecOn with
  | nil => exact agrees_empty origin
  | append_singleton os o ih =>
    rw [List.foldl_append, List.foldl_cons, List.foldl_nil]
    exact agrees_record ih o

/-- **Absorbing a set keeps its tallies and its occurrences together.** -/
theorem agrees_absorb {s other : IdentifierSet} (h : s.Agrees) (h' : other.Agrees) : (s.absorb other).Agrees := by
  intro c
  have hnames : namesIn c (s.absorb other).occurrences = namesIn c s.occurrences ++ namesIn c other.occurrences := by
    simp [namesIn, absorb]
  have htally : (s.absorb other).tally c = (s.tally c).absorb (other.tally c) := ByCategory.get_zipWith _ _ _ _
  rw [hnames, htally]
  exact (h c).absorb (h' c)

theorem agrees_reduce {sets : List IdentifierSet} (h : ∀ s ∈ sets, s.Agrees) : (reduce sets).Agrees := by
  unfold reduce
  induction sets using List.reverseRecOn with
  | nil => exact agrees_empty .stylesheet
  | append_singleton sets s ih =>
    obtain ⟨hsets, hs⟩ := List.forall_mem_append.1 h
    rw [List.foldl_append, List.foldl_cons, List.foldl_nil]
    exact agrees_absorb (ih hsets) (hs s (List.mem_singleton_self s))

theorem occurrences_reduce (sets : List IdentifierSet) : (reduce sets).occurrences = sets.flatMap (·.occurrences) := by
  unfold reduce
  induction sets using List.reverseRecOn with
  | nil => rfl
  | append_singleton sets s ih =>
    rw [List.foldl_append, List.foldl_cons, List.foldl_nil, List.flatMap_append, List.flatMap_singleton]
    exact congrArg (· ++ s.occurrences) ih

/-- a tally lists the names that occur in its category -/
theorem Agrees.mem_names_iff {s : IdentifierSet} (h : s.Agrees) (c : Category) (n : Text) :
    n ∈ (s.tally c).names ↔ ∃ o ∈ s.occurrences, o.category = c ∧ o.name = n := by
  rw [(h c).names, List.mem_eraseDups]
  simp [Occurrence.namesIn, and_assoc]

/-- **A combined set holds the names of its parts.** -/
theorem mem_names_reduce {sets : List IdentifierSet} (h : ∀ s ∈ sets, s.Agrees) (c : Category) (n : Text) :
    n ∈ ((reduce sets).tally c).names ↔ ∃ s ∈ sets, n ∈ (s.tally c).names := by
  rw [(agrees_reduce h).mem_names_iff, occurrences_reduce]
  constructor
  · rintro ⟨o, ho, hn⟩
    obtain ⟨s, hs, ho⟩ := List.mem_flatMap.1 ho
    exact ⟨s, hs, ((h s hs).mem_names_iff c n).2 ⟨o, ho, hn⟩⟩
  · rintro ⟨s, hs, hn⟩
    obtain ⟨o, ho, hn⟩ := ((h s hs).mem_names_iff c n).1 hn
    exact ⟨o, List.mem_flatMap.2 ⟨s, hs, ho⟩, hn⟩

theorem agrees_of_built {s : IdentifierSet} (h : Built s) : s.Agrees := by
  induction h with
  | empty origin => exact agrees_empty origin
  | record o _ ih => exact agrees_record ih o
  | stylesheet config extra sheet => exact agrees_ofOccurrences _ _
  | script source t => exact agrees_ofOccurrences _ _
  | reduce _ ih => exact agrees_reduce ih

theorem count_namesIn (c : Category) (name : Text) (s : IdentifierSet) :
    (namesIn c s.occurrences).count name = (s.occurrencesOf c name).length := by
  unfold namesIn occurrencesOf
  rw [List.count_eq_length_filter, List.filter_map, List.length_map, List.filter_filter]
  refine congrArg List.length (List.filter_congr fun o _ => ?_)
  by_cases hc : o.category = c <;> by_cases hn : o.name = name <;> simp [hc, hn]

/-- **Counts and occurrences agree in every set that is ever built**, however it was recorded, read and combined: a
count is the number of occurrences, and a tally lists the names that occur, each once, in the order in which they come
first among the occurrences, none of them with a count of zero. -/
theorem tallies_agree {s : IdentifierSet} (h : Built s) (c : Category) :
    (∀ name, s.count c name = (s.occurrencesOf c name).length) ∧
    (s.tally c).names = (namesIn c s.occurrences).eraseDups ∧
    (s.tally c).names.Nodup ∧
    ∀ e ∈ (s.tally c).entries, 1 ≤ e.2 := by
  have hc := agrees_of_built h c
  refine ⟨fun name => ?_, hc.names, hc.nodup, fun e he => hc.positive he⟩
  rw [← count_namesIn]
  exact hc.count name

/-- a sheet, a script and a set recorded by hand, combined; then the sheet once more -/
def mixedSet : IdentifierSet :=
  let text := ".a.b\x7b--c:d\x7d@media e\x7b.b\x7bf:var(--c)\x7d\x7d".toList
  let sheet := (Stylesheet.parse {} ⟨0⟩ text).identifiers {} []
  let script := Script.scan ⟨1⟩ "x.className = 'g b';".toList
  let byHand := (empty .script).record ⟨.className, "a".toList, ⟨2⟩, 7, []⟩
  reduce [reduce [script, byHand], reduce [sheet], sheet]

theorem tallies_agree_mixed :
    Built mixedSet ∧ mixedSet.count .className "b".toList = 5 ∧
    (mixedSet.tally .className).names = ["g".toList, "b".toList, "a".toList] ∧
    (∀ name, mixedSet.count .className name = (mixedSet.occurrencesOf .className name).length) ∧
    (mixedSet.tally .className).names = (namesIn .className mixedSet.occurrences).eraseDups ∧
    (mixedSet.tally .className).names.Nodup ∧
    ∀ e ∈ (mixedSet.tally .className).entries, 1 ≤ e.2 := by
  have hbuilt : Built mixedSet := by
    refine .reduce ?_
    simp only [List.forall_mem_cons]
    refine ⟨.reduce ?_, .reduce ?_, .stylesheet _ _ _, by simp⟩
    · simp only [List.forall_mem_cons]
      exact ⟨.script _ _, .record _ (.empty _), by simp⟩
    · simp only [List.forall_mem_cons]
      exact ⟨.stylesheet _ _ _, by simp⟩
  exact ⟨hbuilt, by decide +kernel, by decide +kernel, tallies_agree hbuilt .className⟩

end IdentifierSet

/-! ## Analyses -/

namespace Analysis

variable (config : AnalysisConfig) (sheets : List Stylesheet)

theorem agrees_perSheet : ∀ s ∈ (analyze config sheets).perSheet, s.Agrees := by
  intro s hs
  obtain ⟨sheet, -, rfl⟩ := List.mem_map.1 hs
  exact IdentifierSet.agrees_ofOccurrences _ _

theorem agrees_identifiers : (analyze config sheets).identifiers.Agrees :=
  IdentifierSet.agrees_reduce (agrees_perSheet config sheets)

end Analysis

end StyleCheck
