/-
Dictionaries and what they say of each name.

A dictionary that is only ever altered stays in ascending order of its names, and is then determined by the values it
gives.
- `mem_update`, `sorted_alter`: altering keeps the order;
- `get?_alter_self`, `get?_alter_of_ne`: it sets one name and leaves the others alone;
- `Sorted.ext`: dictionaries in order that give the same values are equal;
- `mem_keys_iff`: the names it holds are those it gives a value to.
-/
import Mathlib.Data.Char
import Mathlib.Data.List.Lex
import StyleCheck.Variable.Map

namespace StyleCheck.Dictionary

variable {α : Type}

/-- names stand in ascending order -/
def Sorted (d : Dictionary α) : Prop := d.entries.Pairwise fun e e' => e.1 < e'.1

theorem sorted_empty : (empty : Dictionary α).Sorted := List.Pairwise.nil

/-! ## Altering one name -/

section
variable (name : Text) (f : Option α → α)

theorem update_lt {e : Text × α} (es : List (Text × α)) (h : name < e.1) :
    update name f (e :: es) = (name, f none) :: e :: es := if_pos h

theorem update_eq (a : α) (es : List (Text × α)) : update name f ((name, a) :: es) = (name, f (some a)) :: es := by
  unfold update
  rw [if_neg (lt_irrefl name), if_pos rfl]

theorem update_gt {e : Text × α} (es : List (Text × α)) (h : e.1 < name) :
    update name f (e :: es) = e :: update name f es := by
  rw [update, if_neg (lt_asymm h), if_neg (ne_of_gt h)]

/-- an altered entry has the name, every other one was there -/
theorem mem_update {e : Text × α} {es : List (Text × α)} (h : e ∈ update name f es) : e.1 = name ∨ e ∈ es := by
  induction es with
  | nil => exact Or.inl (by rw [List.mem_singleton.1 h])
  | cons x es ih =>
    rcases lt_trichotomy name x.1 with hlt | rfl | hgt
    · rw [update_lt name f es hlt] at h
      exact (List.mem_cons.1 h).imp_left fun he => by rw [he]
    · rw [update_eq] at h
      exact (List.mem_cons.1 h).imp (fun he => by rw [he]) (List.mem_cons_of_mem _)
    · rw [update_gt name f es hgt] at h
      rcases List.mem_cons.1 h with rfl | h
      · exact Or.inr List.mem_cons_self
      · exact (ih h).imp_right (List.mem_cons_of_mem _)

/-- **Altering keeps the order.** -/
theorem sorted_alter {d : Dictionary α} (h : d.Sorted) : (d.alter name f).Sorted := by
  obtain ⟨es⟩ := d
  unfold Sorted alter at *
  induction es with
  | nil => exact List.pairwise_singleton _ _
  | cons x es ih =>
    obtain ⟨hx, hes⟩ := List.pairwise_cons.1 h
    rcases lt_trichotomy name x.1 with hlt | rfl | hgt
    · show (update name f (x :: es)).Pairwise _
      rw [update_lt name f es hlt]
      refine List.pairwise_cons.2 ⟨fun e he => ?_, h⟩
      rcases List.mem_cons.1 he with rfl | he
      · exact hlt
      · exact hlt.trans (hx e he)
    · show (update x.1 f (x :: es)).Pairwise _
      rw [update_eq]
      exact List.pairwise_cons.2 ⟨hx, hes⟩
    · show (update name f (x :: es)).Pairwise _
      rw [update_gt name f es hgt]
      refine List.pairwise_cons.2 ⟨fun e he => ?_, ih hes⟩
      rcases mem_update name f he with rfl | he
      · exact hgt
      · exact hx e he

theorem get?_cons_self (a : α) (es : List (Text × α)) : get? ⟨(name, a) :: es⟩ name = some a := by simp [get?]

theorem get?_cons_of_ne {other : Text} (h : name ≠ other) (a : α) (es : List (Text × α)) :
    get? ⟨(name, a) :: es⟩ other = get? ⟨es⟩ other := by
  simp [get?, h]

/-- a name below all others is absent -/
theorem get?_eq_none_of_lt {es : List (Text × α)} (h : ∀ e ∈ es, name < e.1) : get? ⟨es⟩ name = none := by
  have hnone : es.find? (fun e => e.1 = name) = none := by
    refine List.find?_eq_none.2 fun e he => ?_
    simpa using (h e he).ne'
  unfold get?
  rw [hnone]
  rfl

/-- the other names keep their values -/
theorem get?_alter_of_ne (d : Dictionary α) {other : Text} (h : name ≠ other) :
    (d.alter name f).get? other = d.get? other := by
  obtain ⟨es⟩ := d
  unfold alter
  induction es with
  | nil => exact get?_cons_of_ne name h _ []
  | cons x es ih =>
    obtain ⟨m, a⟩ := x
    rcases lt_trichotomy name m with hlt | rfl | hgt
    · rw [update_lt name f es hlt, get?_cons_of_ne name h]
    · rw [update_eq, get?_cons_of_ne name h, get?_cons_of_ne name h]
    · rw [update_gt name f es hgt]
      by_cases hm : m = other
      · rw [hm, get?_cons_self, get?_cons_self]
      · rw [get?_cons_of_ne m hm, get?_cons_of_ne m hm]
        exact ih

/-- **The altered name gets its new value.** -/
theorem get?_alter_self {d : Dictionary α} (h : d.Sorted) : (d.alter name f).get? name = some (f (d.get? name)) := by
  obtain ⟨es⟩ := d
  unfold alter
  induction es with
  | nil => exact get?_cons_self name _ []
  | cons x es ih =>
    obtain ⟨m, a⟩ := x
    obtain ⟨hm, hes⟩ := List.pairwise_cons.1 h
    rcases lt_trichotomy name m with hlt | rfl | hgt
    · have habsent : get? ⟨(m, a) :: es⟩ name = none := by
        refine get?_eq_none_of_lt name fun e he => ?_
        rcases List.mem_cons.1 he with rfl | he
        · exact hlt
        · exact hlt.trans (hm e he)
      rw [update_lt name f es hlt, get?_cons_self, habsent]
    · rw [update_eq, get?_cons_self, get?_cons_self]
    · rw [update_gt name f es hgt, get?_cons_of_ne m hgt.ne, get?_cons_of_ne m hgt.ne]
      exact ih hes

end

/-! ## Equal dictionaries -/

theorem mem_of_get? {d : Dictionary α} {name : Text} {a : α} (h : d.get? name = some a) : (name, a) ∈ d.entries := by
  obtain ⟨e, he, rfl⟩ := Option.map_eq_some_iff.1 h
  have hn : e.1 = name := by simpa using List.find?_some he
  rw [← hn]
  exact List.mem_of_find?_eq_some he

theorem Sorted.get?_eq_some_iff {d : Dictionary α} (h : d.Sorted) {name : Text} {a : α} :
    d.get? name = some a ↔ (name, a) ∈ d.entries := by
  refine ⟨mem_of_get?, fun hm => ?_⟩
  obtain ⟨es⟩ := d
  unfold Sorted at h
  induction es with
  | nil => cases hm
  | cons x es ih =>
    obtain ⟨m, b⟩ := x
    obtain ⟨hx, hes⟩ := List.pairwise_cons.1 h
    rcases List.mem_cons.1 hm with he | hm
    · cases he
      exact get?_cons_self name a es
    · rw [get?_cons_of_ne m (hx _ hm).ne]
      exact ih hes hm

/-- lists that ascend in their names and have the same elements are equal -/
theorem eq_of_mem_iff {β : Type} (name : β → Text) {l l' : List β} (h : l.Pairwise fun a b => name a < name b)
    (h' : l'.Pairwise fun a b => name a < name b) (hmem : ∀ a, a ∈ l ↔ a ∈ l') : l = l' := by
  have hnodup {l : List β} (h : l.Pairwise fun a b => name a < name b) : l.Nodup :=
    h.imp fun {a b} hlt he => hlt.ne (congrArg name he)
  have hperm : l.Perm l' := (List.perm_ext_iff_of_nodup (hnodup h) (hnodup h')).2 hmem
  exact hperm.eq_of_pairwise (fun a b _ _ hlt hgt => absurd hgt (lt_asymm hlt)) h h'

/-- **Dictionaries in order that give the same values are equal.** -/
theorem Sorted.ext {d d' : Dictionary α} (h : d.Sorted) (h' : d'.Sorted) (hget : ∀ name, d.get? name = d'.get? name) :
    d = d' := by
  have hentries : d.entries = d'.entries := eq_of_mem_iff Prod.fst h h' fun e => by
    rw [← h.get?_eq_some_iff, hget, h'.get?_eq_some_iff]
  cases d
  cases d'
  exact congrArg _ hentries

/-! ## Names -/

theorem contains_eq (d : Dictionary α) (name : Text) : d.contains name = d.keys.contains name := by
  unfold contains keys
  rw [List.contains_eq_any_beq, List.any_map]
  refine List.any_congr rfl fun e => ?_
  rw [Bool.eq_iff_iff, decide_eq_true_iff, Function.comp_apply, beq_iff_eq, eq_comm]

/-- a dictionary gives a value to the names it holds -/
theorem isSome_get? (d : Dictionary α) (name : Text) : (d.get? name).isSome = d.contains name := by
  unfold get? contains
  rw [Option.isSome_map, List.isSome_find?]

theorem mem_keys_iff {d : Dictionary α} {name : Text} : name ∈ d.keys ↔ (d.get? name).isSome = true := by
  rw [isSome_get?, contains_eq, List.contains_iff_mem]

theorem Sorted.keys {d : Dictionary α} (h : d.Sorted) : d.keys.Pairwise (· < ·) := h.map _ fun _ _ hlt => hlt

end StyleCheck.Dictionary
