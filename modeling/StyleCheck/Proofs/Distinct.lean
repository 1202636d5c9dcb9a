/-
Distinct elements in order of first occurrence.

Merges, tallies and reports list every name once, where it was met first: `List.eraseDups`. Read from the left it is a
fold that keeps what it has and appends what is new, so each law here is one step of that fold.
- `eraseDups_concat`: one more element;
- `filter_eraseDups`: dropping elements before or after makes no difference;
- `eraseDups_congr`: a part of a list may be replaced by any part with the same distinct elements.
-/
import Mathlib.Data.List.Induction

namespace StyleCheck.Distinct

variable {α : Type} [BEq α] [LawfulBEq α]

/-- one more element is listed unless it was met before -/
theorem eraseDups_concat (l : List α) (a : α) :
    (l ++ [a]).eraseDups = if a ∈ l then l.eraseDups else l.eraseDups ++ [a] := by
  rw [List.eraseDups_append]
  by_cases h : a ∈ l <;> simp [List.removeAll, List.eraseDups_cons, h]

theorem nodup_eraseDups (l : List α) : l.eraseDups.Nodup := by
  induction l using List.reverseRecOn with
  | nil => simp
  | append_singleton l a ih =>
    rw [eraseDups_concat]
    split
    · exact ih
    · rename_i h
      refine List.nodup_append.2 ⟨ih, by simp, fun x hx y hy hxy => h ?_⟩
      rw [← List.mem_singleton.1 hy, ← hxy]
      exact List.mem_eraseDups.1 hx

theorem eraseDups_of_nodup {l : List α} (h : l.Nodup) : l.eraseDups = l := by
  induction l using List.reverseRecOn with
  | nil => rfl
  | append_singleton l a ih =>
    obtain ⟨hl, -, hd⟩ := List.nodup_append.1 h
    have ha : a ∉ l := fun ha => hd a ha a (by simp) rfl
    rw [eraseDups_concat, if_neg ha, ih hl]

theorem filter_eraseDups (p : α → Bool) (l : List α) : (l.filter p).eraseDups = l.eraseDups.filter p := by
  induction l using List.reverseRecOn with
  | nil => rfl
  | append_singleton l a ih =>
    by_cases hp : p a = true
    · have hf : (l ++ [a]).filter p = l.filter p ++ [a] := by simp [hp]
      rw [hf, eraseDups_concat, eraseDups_concat, ih]
      by_cases ha : a ∈ l
      · rw [if_pos (List.mem_filter.2 ⟨ha, hp⟩), if_pos ha]
      · rw [if_neg fun h => ha (List.mem_filter.1 h).1, if_neg ha]
        simp [hp]
    · have hf : (l ++ [a]).filter p = l.filter p := by simp [hp]
      rw [hf, ih, eraseDups_concat]
      split
      · rfl
      · simp [hp]

/-- what a part adds depends on its distinct elements only -/
theorem eraseDups_congr {a b : List α} (h : a.eraseDups = b.eraseDups) (before after : List α) :
    (before ++ a ++ after).eraseDups = (before ++ b ++ after).eraseDups := by
  have hm : ∀ x, x ∈ a ↔ x ∈ b := fun x => by rw [← List.mem_eraseDups, h, List.mem_eraseDups]
  have hb : (before ++ a).eraseDups = (before ++ b).eraseDups := by
    rw [List.eraseDups_append, List.eraseDups_append]
    unfold List.removeAll
    rw [filter_eraseDups, filter_eraseDups, h]
  have ha : after.removeAll (before ++ a) = after.removeAll (before ++ b) := by
    unfold List.removeAll
    refine List.filter_congr ?_
    intro x _
    simp [hm x]
  calc (before ++ a ++ after).eraseDups
      = (before ++ a).eraseDups ++ (after.removeAll (before ++ a)).eraseDups := List.eraseDups_append
    _ = (before ++ b).eraseDups ++ (after.removeAll (before ++ b)).eraseDups := by rw [hb, ha]
    _ = (before ++ b ++ after).eraseDups := List.eraseDups_append.symm

theorem eraseDups_append_eraseDups (l m : List α) : (l ++ m.eraseDups).eraseDups = (l ++ m).eraseDups := by
  have h := eraseDups_congr (eraseDups_of_nodup (nodup_eraseDups m)) l []
  rwa [List.append_nil, List.append_nil] at h

/-- what was listed before is not listed again -/
theorem eraseDups_append_of_subset {a b : List α} (h : ∀ x ∈ b, x ∈ a) : (a ++ b).eraseDups = a.eraseDups := by
  have hb : b.removeAll a = [] := by
    unfold List.removeAll
    exact List.filter_eq_nil_iff.2 fun x hx => by simp [h x hx]
  rw [List.eraseDups_append, hb]
  simp

end StyleCheck.Distinct
