/-
Counts of names in the order in which they were first seen.

A tally is its list of entries, one per name. `add` is the only way it changes; recording, collecting and absorbing are
folds of it. `names_add` and `count_add` say what it does to the two views of a tally, its names and its counts.
-/
namespace StyleCheck

/-- names with their counts, in first-seen order -/
structure Tally (α : Type) where
  entries : List (α × Nat)
  deriving DecidableEq, Repr

namespace Tally

variable {α : Type} [DecidableEq α]

def empty : Tally α := ⟨[]⟩

/-- `n` more of `name`, behind all other names if it is new -/
def bump (name : α) (n : Nat) : List (α × Nat) → List (α × Nat)
  | [] => [(name, n)]
  | e :: es => if e.1 = name then (e.1, e.2 + n) :: es else e :: bump name n es

/-- record `n` occurrences of `name` -/
def add (t : Tally α) (name : α) (n : Nat) : Tally α := ⟨bump name n t.entries⟩

/-- record one occurrence -/
def record (t : Tally α) (name : α) : Tally α := t.add name 1

/-- the tally of a list of names -/
def ofList (names : List α) : Tally α := names.foldl record empty

/-- count of a name, zero where it is absent -/
def count (t : Tally α) (name : α) : Nat := ((t.entries.find? (·.1 = name)).map (·.2)).getD 0

/-- names in first-seen order -/
def names (t : Tally α) : List α := t.entries.map (·.1)

/-- whether `name` was ever recorded, be it zero times -/
def contains (t : Tally α) (name : α) : Bool := t.entries.any (·.1 = name)

/-- number of names -/
def size (t : Tally α) : Nat := t.entries.length

/-- sum of all counts -/
def total (t : Tally α) : Nat := t.entries.foldl (fun n e => n + e.2) 0

/-- add the entries of `other` in their order -/
def absorb (t other : Tally α) : Tally α := other.entries.foldl (fun t e => t.add e.1 e.2) t

theorem contains_iff (t : Tally α) (name : α) : t.contains name = true ↔ name ∈ t.names := by
  simp [contains, names]

/-- a new name goes to the end, a known one stays where it is -/
theorem names_add (t : Tally α) (name : α) (n : Nat) :
    (t.add name n).names = if name ∈ t.names then t.names else t.names ++ [name] := by
  obtain ⟨es⟩ := t
  simp only [add, names]
  induction es with
  | nil => simp [bump]
  | cons e es ih =>
    by_cases h : e.1 = name
    · simp [bump, h]
    · have h' : ¬name = e.1 := fun h' => h h'.symm
      by_cases hm : name ∈ es.map (·.1) <;> simp [bump, h, h', ih, hm]

/-- only the count of `name` changes -/
theorem count_add (t : Tally α) (name other : α) (n : Nat) :
    (t.add name n).count other = t.count other + if other = name then n else 0 := by
  obtain ⟨es⟩ := t
  simp only [add, count]
  induction es with
  | nil => by_cases h : other = name <;> simp [bump, h, eq_comm]
  | cons e es ih =>
    by_cases h : e.1 = name
    · by_cases h' : e.1 = other
      · simp [bump, h, ← h']
      · have : ¬other = name := fun h'' => h' (h.trans h''.symm)
        simp [bump, h, this, show ¬name = other from fun h'' => this h''.symm]
    · by_cases h' : e.1 = other
      · have : ¬other = name := fun h'' => h (h'.trans h'')
        simp [bump, h', this]
      · simp only [bump, h, if_false, List.find?_cons, decide_eq_false h']
        exact ih

end Tally

end StyleCheck
