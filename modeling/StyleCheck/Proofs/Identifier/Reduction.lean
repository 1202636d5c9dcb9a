/-
Reductions of reductions.

Absorbing is associative, down to the order in which names are listed, so the sets of many sources may be put together
in any groups. The law rests on what happens to one name: whether it is counted before a tally is absorbed or after
makes no difference, neither to its count nor to its place.
- `Tally.absorb_add`: a name added to what is absorbed may as well be added behind it;
- `Tally.absorb_assoc`, `absorb_assoc`: what is absorbed may have absorbed other tallies, or sets, before;
- `reduce_append`: a reduction is put together from the reductions of its parts;
- `count_reduce`: a count is the sum of the counts of the parts;
- `reduce_grouped`: groups to any depth and empty sets change nothing, and permutations change no count.
-/
import Mathlib.Algebra.GroupWithZero.Nat
import StyleCheck.Proofs.Identifier.Tallies

namespace StyleCheck

/-! ## Tallies -/

namespace Tally

variable {α : Type} [DecidableEq α]

theorem bump_cons_self (a : α) (k n : Nat) (es : List (α × Nat)) : bump a n ((a, k) :: es) = (a, k + n) :: es :=
  if_pos rfl

theorem bump_cons_of_ne {e : α × Nat} {a : α} (h : e.1 ≠ a) (n : Nat) (es : List (α × Nat)) :
    bump a n (e :: es) = e :: bump a n es := if_neg h

/-- adding twice is adding once -/
theorem bump_bump (a : α) (m n : Nat) (es : List (α × Nat)) : bump a n (bump a m es) = bump a (m + n) es := by
  induction es with
  | nil => exact bump_cons_self a m n []
  | cons e es ih =>
    obtain ⟨b, k⟩ := e
    by_cases h : b = a
    · subst h
      rw [bump_cons_self, bump_cons_self, bump_cons_self, Nat.add_assoc]
    · rw [bump_cons_of_ne h, bump_cons_of_ne h, bump_cons_of_ne h, ih]

/-- a listed name has its place already, so another one may be added before it or after -/
theorem bump_comm_of_mem {b : α} (a : α) (m n : Nat) {es : List (α × Nat)} (h : b ∈ es.map (·.1)) :
    bump a m (bump b n es) = bump b n (bump a m es) := by
  induction es with
  | nil => cases h
  | cons e es ih =>
    obtain ⟨c, k⟩ := e
    by_cases hb : c = b
    · subst hb
      by_cases ha : c = a
      · subst ha
        rw [bump_bump, bump_bump, Nat.add_comm]
      · rw [bump_cons_self, bump_cons_of_ne ha, bump_cons_of_ne ha, bump_cons_self]
    · have hes : b ∈ es.map (·.1) := (List.mem_cons.1 h).resolve_left fun h => hb h.symm
      by_cases ha : c = a
      · subst ha
        rw [bump_cons_of_ne hb, bump_cons_self, bump_cons_self, bump_cons_of_ne hb]
      · rw [bump_cons_of_ne hb, bump_cons_of_ne ha, bump_cons_of_ne ha, bump_cons_of_ne hb, ih hes]

theorem mem_names_add {t : Tally α} {a b : α} (n : Nat) : b ∈ (t.add a n).names ↔ b = a ∨ b ∈ t.names := by
  rw [names_add]
  split <;> simp_all [or_comm]

/-- a listed name may be added before a tally is absorbed or after -/
theorem absorb_add_left {t : Tally α} {b : α} (h : b ∈ t.names) (n : Nat) (other : Tally α) :
    (t.add b n).absorb other = (t.absorb other).add b n := by
  obtain ⟨es⟩ := other
  induction es generalizing t with
  | nil => rfl
  | cons e es ih =>
    have hcomm : (t.add b n).add e.1 e.2 = (t.add e.1 e.2).add b n := congrArg mk (bump_comm_of_mem e.1 e.2 n h)
    calc (t.add b n).absorb ⟨e :: es⟩
        = ((t.add e.1 e.2).add b n).absorb ⟨es⟩ := by rw [absorb_cons, hcomm]
      _ = (t.absorb ⟨e :: es⟩).add b n := ih ((mem_names_add e.2).2 (Or.inr h))

/-- **A name added to what is absorbed may as well be added behind it.** -/
theorem absorb_add (t other : Tally α) (b : α) (n : Nat) : t.absorb (other.add b n) = (t.absorb other).add b n := by
  obtain ⟨es⟩ := other
  induction es generalizing t with
  | nil => rfl
  | cons e es ih =>
    obtain ⟨a, k⟩ := e
    by_cases h : a = b
    · -- the name is absorbed with its first entry, the entries behind it find it listed
      subst h
      have hsum : t.add a (k + n) = (t.add a k).add a n := congrArg mk (bump_bump a k n t.entries).symm
      calc t.absorb (add ⟨(a, k) :: es⟩ a n)
          = t.absorb ⟨(a, k + n) :: es⟩ := by rw [add, bump_cons_self]
        _ = ((t.add a k).add a n).absorb ⟨es⟩ := by rw [absorb_cons, hsum]
        _ = (t.absorb ⟨(a, k) :: es⟩).add a n := absorb_add_left ((mem_names_add k).2 (Or.inl rfl)) n ⟨es⟩
    · calc t.absorb (add ⟨(a, k) :: es⟩ b n)
          = t.absorb ⟨(a, k) :: bump b n es⟩ := by rw [add, bump_cons_of_ne h]
        _ = (t.absorb ⟨(a, k) :: es⟩).add b n := ih (t.add a k)

/-- **Absorbing is associative**, down to the order of the names. -/
theorem absorb_assoc (s t u : Tally α) : s.absorb (t.absorb u) = (s.absorb t).absorb u := by
  obtain ⟨es⟩ := u
  induction es generalizing t with
  | nil => rfl
  | cons e es ih =>
    calc s.absorb (t.absorb ⟨e :: es⟩)
        = (s.absorb (t.add e.1 e.2)).absorb ⟨es⟩ := ih (t.add e.1 e.2)
      _ = (s.absorb t).absorb ⟨e :: es⟩ := by rw [absorb_add, absorb_cons]

/-- what a tally adds to a count does not depend on the tally that absorbs it -/
theorem count_absorb_eq (t other : Tally α) (a : α) :
    (t.absorb other).count a = t.count a + (empty.absorb other).count a := by
  obtain ⟨es⟩ := other
  induction es generalizing t with
  | nil => rfl
  | cons e es ih =>
    have hempty : (empty : Tally α).count a = 0 := rfl
    rw [absorb_cons, absorb_cons, ih, ih (empty.add e.1 e.2), count_add, count_add, hempty]
    omega

end Tally

/-! ## Sets -/

namespace IdentifierSet

/-- **Absorbing is associative on sets.** -/
theorem absorb_assoc (s t u : IdentifierSet) : s.absorb (t.absorb u) = (s.absorb t).absorb u := by
  have horigin : (s.absorb (t.absorb u)).origin = ((s.absorb t).absorb u).origin := by
    simp only [absorb, isAdvisory]
    by_cases hu : u.origin = .script <;> simp [hu]
  have htallies : (s.absorb (t.absorb u)).tallies = ((s.absorb t).absorb u).tallies := by
    simp only [absorb, ByCategory.zipWith, Tally.absorb_assoc]
  have hoccurrences : (s.absorb (t.absorb u)).occurrences = ((s.absorb t).absorb u).occurrences :=
    (List.append_assoc _ _ _).symm
  calc s.absorb (t.absorb u)
      = ⟨(s.absorb (t.absorb u)).origin, (s.absorb (t.absorb u)).tallies, (s.absorb (t.absorb u)).occurrences⟩ := rfl
    _ = (s.absorb t).absorb u := by rw [horigin, htallies, hoccurrences]

/-- an empty set of stylesheets adds nothing -/
theorem absorb_empty (s : IdentifierSet) : s.absorb (empty .stylesheet) = s := by
  have hoccurrences : s.occurrences ++ (empty .stylesheet).occurrences = s.occurrences := List.append_nil _
  unfold absorb
  rw [hoccurrences]
  rfl

theorem absorb_foldl (s t : IdentifierSet) (sets : List IdentifierSet) :
    s.absorb (sets.foldl absorb t) = sets.foldl absorb (s.absorb t) := by
  induction sets generalizing t with
  | nil => rfl
  | cons u sets ih =>
    rw [List.foldl_cons, List.foldl_cons, ih, absorb_assoc]

/-- **A reduction is put together from the reductions of its parts.** -/
theorem reduce_append (sets sets' : List IdentifierSet) : reduce (sets ++ sets') = (reduce sets).absorb (reduce sets') := by
  unfold reduce
  rw [List.foldl_append, absorb_foldl, absorb_empty]

theorem reduce_nil : reduce [] = empty .stylesheet := rfl

/-- reducing what is reduced changes nothing -/
theorem reduce_reduce (sets : List IdentifierSet) : reduce [reduce sets] = reduce sets := by
  have h := reduce_append [] sets
  rw [List.nil_append] at h
  exact h.symm

/-! ## Groups -/

/-- sets in groups, which may hold groups in turn -/
inductive Grouping where
  | set (s : IdentifierSet)
  | group (parts : List Grouping)

mutual

/-- the sets in a group and in the groups inside it, in order -/
def Grouping.sets : Grouping → List IdentifierSet
  | .set s => [s]
  | .group gs => setsOf gs

/-- the sets in several groups -/
def setsOf : List Grouping → List IdentifierSet
  | [] => []
  | g :: gs => g.sets ++ setsOf gs

end

mutual

/-- a group reduced, the groups inside it first -/
def Grouping.reduced : Grouping → IdentifierSet
  | .set s => s
  | .group gs => reduce (reducedEach gs)

/-- several groups, each reduced -/
def reducedEach : List Grouping → List IdentifierSet
  | [] => []
  | g :: gs => g.reduced :: reducedEach gs

end

mutual

theorem reduce_reduced : ∀ g : Grouping, reduce [g.reduced] = reduce g.sets
  | .set _ => rfl
  | .group gs => (reduce_reduce (reducedEach gs)).trans (reduce_reducedEach gs)

/-- **Groups may be reduced beforehand**, to any depth. -/
theorem reduce_reducedEach : ∀ gs : List Grouping, reduce (reducedEach gs) = reduce (setsOf gs)
  | [] => rfl
  | g :: gs =>
    calc reduce (g.reduced :: reducedEach gs)
      _ = (reduce [g.reduced]).absorb (reduce (reducedEach gs)) := reduce_append [g.reduced] (reducedEach gs)
      _ = (reduce g.sets).absorb (reduce (setsOf gs)) := by rw [reduce_reduced g, reduce_reducedEach gs]
      _ = reduce (g.sets ++ setsOf gs) := (reduce_append g.sets (setsOf gs)).symm

end

/-! ## Counts -/

theorem count_absorb (s t : IdentifierSet) (c : Category) (n : Text) :
    (s.absorb t).count c n = s.count c n + (reduce [t]).count c n := by
  have htally (s : IdentifierSet) : (s.absorb t).tally c = (s.tally c).absorb (t.tally c) :=
    ByCategory.get_zipWith _ _ _ _
  have hempty : (empty .stylesheet).tally c = .empty := ByCategory.get_const _ _
  have hone : (reduce [t]).tally c = Tally.empty.absorb (t.tally c) := (htally _).trans (by rw [hempty])
  unfold count
  rw [htally, hone, Tally.count_absorb_eq]

/-- **A count is the sum of what the sets count.** -/
theorem count_reduce (sets : List IdentifierSet) (c : Category) (n : Text) :
    (reduce sets).count c n = (sets.map fun s => (reduce [s]).count c n).sum := by
  induction sets with
  | nil =>
    unfold count tally
    rw [reduce_nil, empty, ByCategory.get_const]
    rfl
  | cons s sets ih =>
    calc (reduce (s :: sets)).count c n
      _ = ((reduce [s]).absorb (reduce sets)).count c n := by rw [← reduce_append, List.singleton_append]
      _ = (reduce [s]).count c n + (reduce sets).count c n := by rw [count_absorb, reduce_reduce]
      _ = ((s :: sets).map fun s => (reduce [s]).count c n).sum := by rw [ih, List.map_cons, List.sum_cons]

theorem isAdvisory_absorb (s t : IdentifierSet) : (s.absorb t).isAdvisory = (s.isAdvisory || t.isAdvisory) := by
  by_cases ht : t.origin = .script <;> simp [absorb, isAdvisory, ht]

/-- a combined set is advisory if one of its parts is -/
theorem isAdvisory_reduce (sets : List IdentifierSet) : (reduce sets).isAdvisory = sets.any (·.isAdvisory) := by
  induction sets with
  | nil => rfl
  | cons s sets ih =>
    have hone : (reduce [s]).isAdvisory = s.isAdvisory := isAdvisory_absorb (empty .stylesheet) s
    rw [← List.singleton_append, reduce_append, isAdvisory_absorb, hone, ih]
    rfl

/-! ## Reductions -/

/-- **Reductions respect order and nest.** Sets may be reduced in groups, and groups in groups to any depth, with the
same origin, the same tallies in the same order and the same occurrences; sets of stylesheets that hold nothing make no
difference wherever they stand; and in another order the sets come to the same counts and are as advisory as before. -/
theorem reduce_grouped :
    (∀ parts : List Grouping, (Grouping.group parts).reduced = reduce (Grouping.group parts).sets) ∧
    (∀ before after : List IdentifierSet, reduce (before ++ empty .stylesheet :: after) = reduce (before ++ after)) ∧
    (∀ sets : List IdentifierSet, reduce (sets.filter (· ≠ empty .stylesheet)) = reduce sets) ∧
    ∀ sets sets' : List IdentifierSet, sets.Perm sets' →
      (∀ c n, (reduce sets').count c n = (reduce sets).count c n) ∧
      (reduce sets').isAdvisory = (reduce sets).isAdvisory := by
  have hinsert (before after : List IdentifierSet) :
      reduce (before ++ empty .stylesheet :: after) = reduce (before ++ after) := by
    have hempty : reduce (before ++ [empty .stylesheet]) = reduce before := by
      rw [reduce_append]
      exact absorb_empty _
    rw [List.append_cons, reduce_append, hempty, ← reduce_append]
  refine ⟨reduce_reducedEach, hinsert, ?_, ?_⟩
  · intro sets
    induction sets using List.reverseRecOn with
    | nil => rfl
    | append_singleton sets s ih =>
      rw [List.filter_append, reduce_append, ih, ← reduce_append]
      by_cases hs : s = empty .stylesheet
      · subst hs
        simpa using (hinsert sets []).symm
      · simp [hs]
  · intro sets sets' h
    refine ⟨fun c n => ?_, ?_⟩
    · rw [count_reduce, count_reduce]
      exact (h.map _).sum_nat.symm
    · rw [isAdvisory_reduce, isAdvisory_reduce]
      exact h.any_eq.symm

/-- a set of classes -/
def classSet (origin : Origin) (names : List String) : IdentifierSet :=
  ofOccurrences origin (names.map fun n => ⟨.className, n.toList, ⟨0⟩, 1, []⟩)

/-- classes in two sheets and a script between them, in different orders -/
theorem reduce_grouped_overlapping :
    let a := classSet .stylesheet ["b", "a"]
    let b := classSet .script ["c", "b"]
    let c := classSet .stylesheet ["a", "d", "b"]
    reduce [reduce [a, reduce [b]], c] = reduce [a, b, c] ∧
    ((reduce [a, b, c]).tally .className).entries =
      [("b".toList, 3), ("a".toList, 2), ("c".toList, 1), ("d".toList, 1)] ∧
    reduce [a, empty .stylesheet, b, c] = reduce [a, b, c] ∧
    [a, b, c].Perm [c, b, a] ∧
    ((reduce [c, b, a]).tally .className).names = ["a".toList, "d".toList, "b".toList, "c".toList] ∧
    (∀ k n, (reduce [c, b, a]).count k n = (reduce [a, b, c]).count k n) ∧
    (reduce [c, b, a]).isAdvisory = (reduce [a, b, c]).isAdvisory := by
  intro a b c
  obtain ⟨hnest, hinsert, -, hperm⟩ := reduce_grouped
  have h : [a, b, c].Perm [c, b, a] := (List.reverse_perm [a, b, c]).symm
  refine ⟨?_, ?_, ?_, h, ?_, hperm _ _ h⟩
  · exact hnest [.group [.set a, .group [.set b]], .set c]
  · decide +kernel
  · exact hinsert [a] [b, c]
  · decide +kernel

end IdentifierSet

end StyleCheck
