/-
Tallies with an index.

A tally goes through its entries to find a name. `Indexed` keeps the place of every name in a hash map beside the
entries and goes there at once, so an entry is changed at the place that the index says. Both come to the same whatever
is done, for the index never drifts from the entries. What a tally has to hold is read off its `History`: every name
that was given, with its count, in order, those of an absorbed tally behind the others.
- `Indexes.add`, `Indexes.absorb`: the index keeps saying where each name is listed, for one name and for a whole tally;
- `Holds.add`, `Holds.absorb`: a tally keeps holding what was given, each name where it was given first, with the sum of
  its counts, be it zero;
- `Holds.unique`, `Indexes.unique`: the tally, and its index too, is determined by that;
- `history_exact`: so it is with every tally, however it came about.
-/
import Mathlib.Data.List.Induction
import StyleCheck.Proofs.Identifier.Reduction

namespace StyleCheck.Tally

open Distinct

variable {α : Type} [DecidableEq α]

/-! ## The index -/

/-- entries with the place of every name among them -/
structure Indexed (α : Type) [DecidableEq α] [Hashable α] where
  entries : List (α × Nat)
  index : Std.ExtHashMap α Nat

section

variable [Hashable α]

namespace Indexed

def empty : Indexed α := ⟨[], ∅⟩

/-- `n` more of `name`: at its place, or behind all entries, where its place is noted -/
def add (x : Indexed α) (name : α) (n : Nat) : Indexed α :=
  match x.index[name]? with
  | some slot => { x with entries := x.entries.modify slot fun e => (e.1, e.2 + n) }
  | none => ⟨x.entries ++ [(name, n)], x.index.insert name x.entries.length⟩

def record (x : Indexed α) (name : α) : Indexed α := x.add name 1

def ofList (names : List α) : Indexed α := names.foldl record empty

/-- add the entries of `other` in their order -/
def absorb (x other : Indexed α) : Indexed α := other.entries.foldl (fun x e => x.add e.1 e.2) x

/-- count at the place of a name, zero where it has none -/
def count (x : Indexed α) (name : α) : Nat :=
  match x.index[name]? with
  | some slot => (x.entries[slot]?.map (·.2)).getD 0
  | none => 0

def contains (x : Indexed α) (name : α) : Bool := x.index.contains name

/-- `x` is `t` with an index that says where each name is listed -/
structure Indexes (x : Indexed α) (t : Tally α) : Prop where
  entries : x.entries = t.entries
  index : ∀ a, x.index[a]? = t.names.idxOf? a

end Indexed

end

/-- a name put behind others is found behind them -/
theorem idxOf?_concat (l : List α) (a b : α) :
    (l ++ [a]).idxOf? b = (l.idxOf? b).or (if a = b then some l.length else none) := by
  unfold List.idxOf?
  rw [List.findIdx?_append]
  by_cases h : a = b <;> simp [h]

/-- a listed name is counted at its place -/
theorem bump_of_idxOf? {a : α} {slot : Nat} {es : List (α × Nat)} (h : (es.map (·.1)).idxOf? a = some slot) (n : Nat) :
    bump a n es = es.modify slot fun e => (e.1, e.2 + n) := by
  induction es generalizing slot with
  | nil => cases h
  | cons e es ih =>
    obtain ⟨b, k⟩ := e
    rw [List.map_cons, List.idxOf?_cons] at h
    by_cases hb : b = a
    · subst hb
      rw [if_pos (beq_self_eq_true b)] at h
      rw [bump_cons_self, ← Option.some.inj h]
      rfl
    · rw [if_neg (by simpa using hb)] at h
      obtain ⟨i, hi, rfl⟩ := Option.map_eq_some_iff.1 h
      rw [bump_cons_of_ne hb, ih hi]
      rfl

/-- a new name is counted behind all others -/
theorem bump_of_not_mem {a : α} {es : List (α × Nat)} (h : a ∉ es.map (·.1)) (n : Nat) :
    bump a n es = es ++ [(a, n)] := by
  induction es with
  | nil => rfl
  | cons e es ih =>
    obtain ⟨hne, hes⟩ := not_or.1 (mt List.mem_cons.2 h)
    rw [bump_cons_of_ne (Ne.symm hne), ih hes]
    rfl

/-- the count of a name is that of the entry at its place -/
theorem count_of_idxOf? {t : Tally α} {a : α} {slot : Nat} (h : t.names.idxOf? a = some slot) :
    t.count a = (t.entries[slot]?.map (·.2)).getD 0 := by
  obtain ⟨es⟩ := t
  unfold names at h
  unfold count
  induction es generalizing slot with
  | nil => cases h
  | cons e es ih =>
    rw [List.map_cons, List.idxOf?_cons] at h
    by_cases hb : e.1 = a
    · rw [if_pos (by simpa using hb)] at h
      rw [List.find?_cons_of_pos (by simpa using hb), ← Option.some.inj h]
      rfl
    · rw [if_neg (by simpa using hb)] at h
      obtain ⟨i, hi, rfl⟩ := Option.map_eq_some_iff.1 h
      rw [List.find?_cons_of_neg (by simpa using hb), ih hi, List.getElem?_cons_succ]

section

variable [Hashable α]

namespace Indexed.Indexes

variable {x y : Indexed α} {t u : Tally α}

theorem nothing : (empty : Indexed α).Indexes Tally.empty := by
  refine ⟨rfl, ?_⟩
  intro a
  exact Std.ExtHashMap.getElem?_empty

/-- **The index keeps saying where each name is listed**, whether the name is new or not. -/
theorem add (h : x.Indexes t) (a : α) (n : Nat) : (x.add a n).Indexes (t.add a n) := by
  cases hplace : t.names.idxOf? a with
  | some slot =>
    have hmem : a ∈ t.names := List.isSome_idxOf?.1 (Option.isSome_of_eq_some hplace)
    have hadd : x.add a n = { x with entries := x.entries.modify slot fun e => (e.1, e.2 + n) } := by
      unfold Indexed.add
      rw [h.index, hplace]
    rw [hadd]
    refine ⟨?_, ?_⟩
    · calc x.entries.modify slot _
          = t.entries.modify slot _ := by rw [h.entries]
        _ = bump a n t.entries := (bump_of_idxOf? hplace n).symm
    · intro b
      rw [names_add, if_pos hmem]
      exact h.index b
  | none =>
    have hnew : a ∉ t.names := List.idxOf?_eq_none_iff.1 hplace
    have hadd : x.add a n = ⟨x.entries ++ [(a, n)], x.index.insert a x.entries.length⟩ := by
      unfold Indexed.add
      rw [h.index, hplace]
    rw [hadd]
    refine ⟨?_, ?_⟩
    · calc x.entries ++ [(a, n)]
          = t.entries ++ [(a, n)] := by rw [h.entries]
        _ = bump a n t.entries := (bump_of_not_mem hnew n).symm
    · intro b
      have hlength : x.entries.length = t.names.length := by rw [h.entries, names, List.length_map]
      rw [names_add, if_neg hnew, idxOf?_concat, Std.ExtHashMap.getElem?_insert, h.index, hlength]
      by_cases hb : a = b
      · subst hb
        simp [hplace]
      · simp [hb]

theorem ofList (names : List α) : (Indexed.ofList names).Indexes (Tally.ofList names) := by
  unfold Indexed.ofList Tally.ofList
  induction names using List.reverseRecOn with
  | nil => exact nothing
  | append_singleton names a ih =>
    rw [List.foldl_append, List.foldl_append]
    exact ih.add a 1

/-- **So it does when a whole tally is absorbed**, entry by entry. -/
theorem absorb (h : x.Indexes t) (h' : y.Indexes u) : (x.absorb y).Indexes (t.absorb u) := by
  unfold Indexed.absorb Tally.absorb
  rw [h'.entries]
  generalize u.entries = es
  induction es generalizing x t with
  | nil => exact h
  | cons e es ih => exact ih (h.add e.1 e.2)

theorem count (h : x.Indexes t) (a : α) : x.count a = t.count a := by
  unfold Indexed.count
  rw [h.index, h.entries]
  cases hplace : t.names.idxOf? a with
  | some slot => exact (count_of_idxOf? hplace).symm
  | none => exact (count_of_not_mem (List.idxOf?_eq_none_iff.1 hplace)).symm

theorem contains (h : x.Indexes t) (a : α) : x.contains a = t.contains a := by
  unfold Indexed.contains
  rw [Std.ExtHashMap.contains_eq_isSome_getElem?, h.index, Bool.eq_iff_iff, List.isSome_idxOf?, contains_iff]

/-- **The index maps a name to the place of its entry, and nothing else.** -/
theorem index_eq_some_iff (h : x.Indexes t) (hnodup : t.names.Nodup) (a : α) (slot : Nat) :
    x.index[a]? = some slot ↔ ∃ n, x.entries[slot]? = some (a, n) := by
  have hname : (∃ n, x.entries[slot]? = some (a, n)) ↔ t.names[slot]? = some a := by
    rw [h.entries, names, List.getElem?_map, Option.map_eq_some_iff]
    constructor
    · rintro ⟨n, hn⟩
      exact ⟨(a, n), hn, rfl⟩
    · rintro ⟨⟨b, n⟩, hn, rfl⟩
      exact ⟨n, hn⟩
  rw [hname, h.index]
  constructor
  · intro hplace
    obtain ⟨hlt, ha, -⟩ := List.idxOf?_eq_some_iff.1 hplace
    rw [List.getElem?_eq_getElem hlt, ha]
  · intro hslot
    obtain ⟨hlt, ha⟩ := List.getElem?_eq_some_iff.1 hslot
    refine List.idxOf?_eq_some_iff.2 ⟨hlt, ha, ?_⟩
    intro j hj hja
    have hsame : t.names[j]? = t.names[slot]? := by
      rw [List.getElem?_eq_getElem (Nat.lt_trans hj hlt), hslot, hja]
    exact Nat.ne_of_lt hj ((List.getElem?_inj (Nat.lt_trans hj hlt) hnodup).1 hsame)

/-- **Entries determine the index**, so tallies with equal entries are equal in all they do. -/
theorem unique (h : x.Indexes t) (h' : y.Indexes t) : x = y := by
  have hindex : x.index = y.index := by
    apply Std.ExtHashMap.ext_getElem?
    intro a
    rw [h.index, h'.index]
  obtain ⟨xs, ix⟩ := x
  obtain ⟨ys, iy⟩ := y
  have hentries : xs = ys := h.entries.trans h'.entries.symm
  subst hentries
  exact congrArg (Indexed.mk xs) hindex

end Indexed.Indexes

end

/-! ## What was given -/

/-- the sum of the counts given for a name -/
def weight (a : α) (given : List (α × Nat)) : Nat := ((given.filter (·.1 = a)).map (·.2)).sum

theorem weight_append (a : α) (given more : List (α × Nat)) :
    weight a (given ++ more) = weight a given + weight a more := by
  unfold weight
  rw [List.filter_append, List.map_append, List.sum_append]

omit [DecidableEq α] in
theorem total_eq (t : Tally α) : t.total = (t.entries.map (·.2)).sum := by
  unfold total
  rw [List.sum_eq_foldl, List.foldl_map]

theorem total_add (t : Tally α) (a : α) (n : Nat) : (t.add a n).total = t.total + n := by
  obtain ⟨es⟩ := t
  rw [total_eq, total_eq]
  unfold add
  induction es with
  | nil => simp [bump]
  | cons e es ih =>
    by_cases h : e.1 = a
    · simp only [bump, if_pos h, List.map_cons, List.sum_cons]
      omega
    · simp only [bump, if_neg h, List.map_cons, List.sum_cons] at ih ⊢
      omega

theorem total_absorb (t other : Tally α) : (t.absorb other).total = t.total + other.total := by
  obtain ⟨es⟩ := other
  induction es generalizing t with
  | nil => rfl
  | cons e es ih =>
    rw [absorb_cons, ih, total_add, total_eq ⟨e :: es⟩, total_eq ⟨es⟩, List.map_cons, List.sum_cons, Nat.add_assoc]

/-- `t` holds what was given: every name once, where it was given first, with the sum of its counts -/
structure Holds (t : Tally α) (given : List (α × Nat)) : Prop where
  names : t.names = (given.map (·.1)).eraseDups
  count : ∀ a, t.count a = weight a given
  total : t.total = (given.map (·.2)).sum

namespace Holds

variable {t u : Tally α} {given more : List (α × Nat)}

theorem nodup (h : t.Holds given) : t.names.Nodup := by
  rw [h.names]
  exact nodup_eraseDups _

theorem nothing : (empty : Tally α).Holds [] := ⟨rfl, fun _ => rfl, rfl⟩

/-- **A tally keeps holding what was given**, one name more. -/
theorem add (h : t.Holds given) (a : α) (n : Nat) : (t.add a n).Holds (given ++ [(a, n)]) := by
  refine ⟨?_, ?_, ?_⟩
  · rw [List.map_append]
    exact names_add_eq h.names a n
  · intro b
    rw [count_add, h.count, weight_append]
    by_cases hb : b = a
    · simp [weight, hb]
    · simp [weight, hb, Ne.symm hb]
  · rw [total_add, h.total, List.map_append, List.sum_append]
    rfl

/-- **So it does when it absorbs a tally**, be it a copy of itself. -/
theorem absorb (h : t.Holds given) (h' : u.Holds more) : (t.absorb u).Holds (given ++ more) := by
  refine ⟨?_, ?_, ?_⟩
  · rw [List.map_append]
    exact names_absorb h.names h'.names
  · intro a
    rw [count_absorb t u h'.nodup, h.count, h'.count, weight_append]
  · rw [total_absorb, h.total, h'.total, List.map_append, List.sum_append]

theorem ofList (names : List α) : (Tally.ofList names).Holds (names.map fun a => (a, 1)) := by
  unfold Tally.ofList
  induction names using List.reverseRecOn with
  | nil => exact nothing
  | append_singleton names a ih =>
    rw [List.foldl_append, List.map_append]
    exact ih.add a 1

theorem contains_iff (h : t.Holds given) (a : α) : t.contains a = true ↔ a ∈ given.map (·.1) := by
  rw [Tally.contains_iff, h.names, List.mem_eraseDups]

/-- **What was given determines a tally.** -/
theorem unique (h : t.Holds given) (h' : u.Holds given) : t = u := by
  have hentries {t : Tally α} (h : t.Holds given) :
      t.entries = (given.map (·.1)).eraseDups.map fun a => (a, weight a given) := by
    rw [← h.names, Tally.names, List.map_map]
    refine (List.map_id _).symm.trans (List.map_congr_left ?_)
    intro e he
    exact Prod.ext rfl ((count_of_mem h.nodup he).symm.trans (h.count e.1))
  obtain ⟨es⟩ := t
  obtain ⟨es'⟩ := u
  exact congrArg Tally.mk ((hentries h).trans (hentries h').symm)

end Holds

/-! ## Histories -/

/-- how a tally came about; one that is absorbed has a history of its own, which may be the same -/
inductive History (α : Type) where
  | empty
  | record (h : History α) (name : α)
  | add (h : History α) (name : α) (n : Nat)
  | ofList (names : List α)
  | absorb (h other : History α)

namespace History

/-- every name that was given with its count, in order -/
def given : History α → List (α × Nat)
  | empty => []
  | record h a => h.given ++ [(a, 1)]
  | add h a n => h.given ++ [(a, n)]
  | ofList names => names.map fun a => (a, 1)
  | absorb h other => h.given ++ other.given

/-- the tally that came about -/
def tally : History α → Tally α
  | empty => .empty
  | record h a => h.tally.record a
  | add h a n => h.tally.add a n
  | ofList names => .ofList names
  | absorb h other => h.tally.absorb other.tally

theorem holds (h : History α) : h.tally.Holds h.given := by
  induction h with
  | empty => exact .nothing
  | record h a ih => exact ih.add a 1
  | add h a n ih => exact ih.add a n
  | ofList names => exact .ofList names
  | absorb h other ih ih' => exact ih.absorb ih'

variable [Hashable α]

/-- the tally that came about, with its index -/
def indexed : History α → Indexed α
  | empty => .empty
  | record h a => h.indexed.record a
  | add h a n => h.indexed.add a n
  | ofList names => .ofList names
  | absorb h other => h.indexed.absorb other.indexed

theorem indexes (h : History α) : h.indexed.Indexes h.tally := by
  induction h with
  | empty => exact .nothing
  | record h a ih => exact ih.add a 1
  | add h a n ih => exact ih.add a n
  | ofList names => exact .ofList names
  | absorb h other ih ih' => exact ih.absorb ih'

end History

/-- **A tally is what it was given, in order**, however it came about. With an index and without one it has the same
entries. The index maps a name to the place of its one entry and nothing else. Names are listed once each, in the order
in which they were first given; the count of a name is the sum of the counts given for it, a name is contained if it was
ever given, be it zero times, and the total is the sum of all counts. Lists collected one after the other and absorbed
are one list collected, and tallies are equal, their indexes included, if and only if they have the same entries. -/
theorem history_exact [Hashable α] (h : History α) :
    h.indexed.entries = h.tally.entries ∧
    (∀ (a : α) (slot : Nat), h.indexed.index[a]? = some slot ↔ ∃ n, h.indexed.entries[slot]? = some (a, n)) ∧
    h.tally.names = (h.given.map (·.1)).eraseDups ∧
    h.tally.names.Nodup ∧
    (∀ a, h.indexed.count a = h.tally.count a ∧ h.tally.count a = weight a h.given) ∧
    (∀ a, h.indexed.contains a = h.tally.contains a ∧ (h.tally.contains a = true ↔ a ∈ h.given.map (·.1))) ∧
    h.tally.total = (h.given.map (·.2)).sum ∧
    (∀ xs ys : List α, (Indexed.ofList xs).absorb (.ofList ys) = .ofList (xs ++ ys) ∧
      (ofList xs).absorb (ofList ys) = ofList (xs ++ ys)) ∧
    ∀ h' : History α, (h.indexed = h'.indexed ↔ h.indexed.entries = h'.indexed.entries) ∧
      (h.tally = h'.tally ↔ h.tally.entries = h'.tally.entries) := by
  have hholds := h.holds
  have hindexes := h.indexes
  refine ⟨hindexes.entries, hindexes.index_eq_some_iff hholds.nodup, hholds.names, hholds.nodup, ?_, ?_, hholds.total,
    ?_, ?_⟩
  · intro a
    exact ⟨hindexes.count a, hholds.count a⟩
  · intro a
    exact ⟨hindexes.contains a, hholds.contains_iff a⟩
  · intro xs ys
    have hlists : (ofList xs).absorb (ofList ys) = ofList (xs ++ ys) := by
      have happend := (Holds.ofList xs).absorb (Holds.ofList ys)
      rw [← List.map_append] at happend
      exact happend.unique (.ofList (xs ++ ys))
    have habsorb := (Indexed.Indexes.ofList xs).absorb (.ofList ys)
    rw [hlists] at habsorb
    exact ⟨habsorb.unique (.ofList (xs ++ ys)), hlists⟩
  · intro h'
    have htally (hentries : h.tally.entries = h'.tally.entries) : h.tally = h'.tally := congrArg Tally.mk hentries
    refine ⟨⟨congrArg Indexed.entries, ?_⟩, ⟨congrArg Tally.entries, htally⟩⟩
    intro hentries
    rw [hindexes.entries, h'.indexes.entries] at hentries
    exact hindexes.unique (htally hentries ▸ h'.indexes)

end StyleCheck.Tally
