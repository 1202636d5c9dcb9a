/-
What a merge makes of its rules, said without the machine.

For the rules the layers do not matter, only their concatenation: `absorb` is one rule of it, and `rules_merge` says
that a merge absorbs the concatenated layers one rule after the other. `Settled rules merged` is the closed form: the
selectors of `rules`, each once and in order of first occurrence, with kind and lines from the first rule for it and
body and source from the last.
- `settled_absorb`: the invariant that one rule keeps; `settled_merge`: so every merge is settled;
- `Settled.unique`: there is only one settled list, so two merges agree as soon as their first and last rules do;
- `merge_rules_exact`: the rules of a merge, field by field;
- `merge_rules_regroup`: layers may be merged beforehand, empty ones inserted, and the last ones applied again.
-/
import StyleCheck.Cascade.Merge
import StyleCheck.Proofs.Distinct

namespace StyleCheck.Cascade

open Distinct

/-! ## The rules without the layers -/

/-- one more rule: it replaces body and source of the rule with its selector, or takes the next place -/
def absorb (merged : List Rule) (r : Rule) : List Rule :=
  if r.selector ∈ merged.map (·.selector) then
    merged.map fun t => if t.selector = r.selector then { t with body := r.body, source := r.source } else t
  else merged ++ [{ r with position := merged.length }]

theorem rules_apply (layer : Nat) (st : St) (r : Rule) :
    (apply layer st r).slots.map (·.rule) = absorb (st.slots.map (·.rule)) r := by
  unfold apply absorb
  cases hf : st.slots.find? (·.rule.selector = r.selector) with
  | none =>
    have h : r.selector ∉ (st.slots.map (·.rule)).map (·.selector) := by
      simpa using hf
    rw [if_neg h, List.map_append, List.map_singleton, List.length_map]
  | some s =>
    have h : r.selector ∈ (st.slots.map (·.rule)).map (·.selector) := by
      have hs : s.rule.selector = r.selector := by simpa using List.find?_some hf
      simpa using ⟨s, List.mem_of_find?_eq_some hf, hs⟩
    rw [if_pos h, List.map_map, List.map_map]
    refine List.map_congr_left fun t _ => ?_
    by_cases ht : t.rule.selector = r.selector <;> simp [Slot.replace, ht]

theorem rules_applyLayer (st : St) (layer : List Rule × Nat) :
    (applyLayer st layer).slots.map (·.rule) = layer.1.foldl absorb (st.slots.map (·.rule)) := by
  obtain ⟨rules, n⟩ := layer
  unfold applyLayer
  induction rules generalizing st with
  | nil => rfl
  | cons r rules ih => rw [List.foldl_cons, List.foldl_cons, ih, rules_apply]

/-- a merge absorbs the concatenated layers one rule after the other -/
theorem rules_merge (layers : List (List Rule)) : (merge layers).rules = layers.flatten.foldl absorb [] := by
  have h : ∀ (n : Nat) (st : St), ((layers.zipIdx n).foldl applyLayer st).slots.map (·.rule) =
      layers.flatten.foldl absorb (st.slots.map (·.rule)) := by
    induction layers with
    | nil => intro n st; rfl
    | cons l ls ih =>
      intro n st
      rw [List.zipIdx_cons, List.foldl_cons, ih, rules_applyLayer, List.flatten_cons, List.foldl_append]
  exact h 0 start

/-! ## The closed form -/

def first? (rules : List Rule) (s : Text) : Option Rule := rules.find? (·.selector = s)

def last? (rules : List Rule) (s : Text) : Option Rule := rules.reverse.find? (·.selector = s)

/-- what rules make of a selector at place `n`: the first one with body and source of the last -/
def settle (rules : List Rule) (n : Nat) (s : Text) : Option Rule :=
  (first? rules s).bind fun f => (last? rules s).map fun l =>
    { f with body := l.body, source := l.source, position := n }

/-- `merged` is what `rules` come to -/
structure Settled (rules merged : List Rule) : Prop where
  selectors : merged.map (·.selector) = (rules.map (·.selector)).eraseDups
  each : ∀ n r, merged[n]? = some r → settle rules n r.selector = some r

theorem first?_append (a b : List Rule) (s : Text) : first? (a ++ b) s = (first? a s).or (first? b s) :=
  List.find?_append

theorem last?_append (a b : List Rule) (s : Text) : last? (a ++ b) s = (last? b s).or (last? a s) := by
  simp [last?, List.find?_append]

@[simp] theorem first?_singleton (r : Rule) (s : Text) : first? [r] s = if r.selector = s then some r else none := by
  by_cases h : r.selector = s <;> simp [first?, h]

@[simp] theorem last?_singleton (r : Rule) (s : Text) : last? [r] s = if r.selector = s then some r else none := by
  by_cases h : r.selector = s <;> simp [last?, h]

theorem first?_eq_none {rules : List Rule} {s : Text} : first? rules s = none ↔ s ∉ rules.map (·.selector) := by
  simp [first?]

theorem last?_eq_none {rules : List Rule} {s : Text} : last? rules s = none ↔ s ∉ rules.map (·.selector) := by
  simp [last?]

theorem selector_of_first? {rules : List Rule} {s : Text} {f : Rule} (h : first? rules s = some f) :
    f.selector = s := by
  simpa using List.find?_some h

theorem selector_of_last? {rules : List Rule} {s : Text} {l : Rule} (h : last? rules s = some l) :
    l.selector = s := by
  simpa using List.find?_some h

theorem settle_concat_of_ne (rules : List Rule) (n : Nat) {r : Rule} {s : Text} (h : r.selector ≠ s) :
    settle (rules ++ [r]) n s = settle rules n s := by
  simp [settle, first?_append, last?_append, h]

/-- a further rule for a known selector replaces body and source -/
theorem settle_concat_of_eq {rules : List Rule} {n : Nat} {r t : Rule} (h : settle rules n r.selector = some t) :
    settle (rules ++ [r]) n r.selector = some { t with body := r.body, source := r.source } := by
  unfold settle at h
  obtain ⟨f, hf, h⟩ := Option.bind_eq_some_iff.1 h
  obtain ⟨l, -, rfl⟩ := Option.map_eq_some_iff.1 h
  simp [settle, first?_append, last?_append, hf]

theorem settle_concat_of_new {rules : List Rule} {n : Nat} {r : Rule} (h : r.selector ∉ rules.map (·.selector)) :
    settle (rules ++ [r]) n r.selector = some { r with position := n } := by
  simp [settle, first?_append, last?_append, first?_eq_none.2 h]

theorem settled_nil : Settled [] [] := ⟨rfl, by simp⟩

/-- **One rule keeps the closed form.** -/
theorem settled_absorb {rules merged : List Rule} (r : Rule) (h : Settled rules merged) :
    Settled (rules ++ [r]) (absorb merged r) := by
  have hmem : r.selector ∈ merged.map (·.selector) ↔ r.selector ∈ rules.map (·.selector) := by
    rw [h.selectors, List.mem_eraseDups]
  unfold absorb
  split
  · rename_i hr
    refine ⟨?_, ?_⟩
    · rw [List.map_append, List.map_singleton, eraseDups_concat, if_pos (hmem.1 hr), ← h.selectors, List.map_map]
      refine List.map_congr_left fun t _ => ?_
      by_cases ht : t.selector = r.selector <;> simp [ht]
    · intro n t ht
      rw [List.getElem?_map] at ht
      obtain ⟨t0, ht0, rfl⟩ := Option.map_eq_some_iff.1 ht
      have h0 := h.each n t0 ht0
      split
      · rename_i he
        rw [he] at h0
        exact he ▸ settle_concat_of_eq h0
      · rename_i he
        rw [settle_concat_of_ne rules n (Ne.symm he)]
        exact h0
  · rename_i hr
    refine ⟨?_, ?_⟩
    · rw [List.map_append, List.map_append, List.map_singleton, List.map_singleton, eraseDups_concat,
        if_neg fun hc => hr (hmem.2 hc), h.selectors]
    · intro n t ht
      -- either an old place, whose selector is another one, or the new one
      rcases Nat.lt_or_ge n merged.length with hn | hn
      · rw [List.getElem?_append_left hn] at ht
        have hne : r.selector ≠ t.selector := fun he => hr (he ▸ List.mem_map_of_mem (List.mem_of_getElem? ht))
        rw [settle_concat_of_ne rules n hne]
        exact h.each n t ht
      · rw [List.getElem?_append_right hn] at ht
        obtain ⟨hn', rfl⟩ : n - merged.length = 0 ∧ { r with position := merged.length } = t := by
          simpa [List.getElem?_singleton] using ht
        obtain rfl : n = merged.length := by omega
        exact settle_concat_of_new fun hc => hr (hmem.2 hc)

/-- **Every merge is settled.** -/
theorem settled_merge (layers : List (List Rule)) : Settled layers.flatten (merge layers).rules := by
  rw [rules_merge]
  induction layers.flatten using List.reverseRecOn with
  | nil => exact settled_nil
  | append_singleton rules r ih =>
    rw [List.foldl_append]
    exact settled_absorb r ih

/-- a rule of a merge is the first rule for its selector with body and source of the last -/
theorem ends_of_mem_merge {layers : List (List Rule)} {r : Rule} (h : r ∈ (merge layers).rules) :
    ∃ f l n, first? layers.flatten r.selector = some f ∧ last? layers.flatten r.selector = some l ∧
      r = { f with body := l.body, source := l.source, position := n } := by
  obtain ⟨n, hn⟩ := List.getElem?_of_mem h
  have hw := (settled_merge layers).each n r hn
  unfold settle at hw
  obtain ⟨f, hf, hw⟩ := Option.bind_eq_some_iff.1 hw
  obtain ⟨l, hl, hw⟩ := Option.map_eq_some_iff.1 hw
  exact ⟨f, l, n, hf, hl, hw.symm⟩

/-- a rule of a merge has selector and kind from one of the rules, and its body from one of them -/
theorem mem_merge {layers : List (List Rule)} {r : Rule} (h : r ∈ (merge layers).rules) :
    (∃ f ∈ layers.flatten, r.selector = f.selector ∧ r.kind = f.kind) ∧ ∃ l ∈ layers.flatten, r.body = l.body := by
  obtain ⟨f, l, n, hf, hl, hr⟩ := ends_of_mem_merge h
  refine ⟨⟨f, List.mem_of_find?_eq_some hf, ?_, ?_⟩, l, List.mem_reverse.1 (List.mem_of_find?_eq_some hl), ?_⟩ <;>
    rw [hr]

/-- every selector of the layers has its rule in the merge, with the last body for it -/
theorem exists_mem_merge {layers : List (List Rule)} {s : Text} {l : Rule} (h : last? layers.flatten s = some l) :
    ∃ r ∈ (merge layers).rules, r.selector = s ∧ r.body = l.body := by
  have hs : s ∈ (merge layers).rules.map (·.selector) := by
    rw [(settled_merge layers).selectors, List.mem_eraseDups]
    by_contra hc
    rw [last?_eq_none.2 hc] at h
    cases h
  obtain ⟨r, hr, rfl⟩ := List.mem_map.1 hs
  obtain ⟨f, l', n, -, hl, he⟩ := ends_of_mem_merge hr
  obtain rfl : l' = l := Option.some.inj (hl.symm.trans h)
  exact ⟨r, hr, rfl, by rw [he]⟩

/-! ## Settled lists are determined by the first and last rules -/

theorem Settled.unique {rules a b : List Rule} (ha : Settled rules a) (hb : Settled rules b) : a = b := by
  refine List.ext_getElem? ?_
  intro n
  have hs : a[n]?.map (·.selector) = b[n]?.map (·.selector) := by
    rw [← List.getElem?_map, ← List.getElem?_map, ha.selectors, hb.selectors]
  cases han : a[n]? with
  | none =>
    rw [han] at hs
    exact (Option.map_eq_none_iff.1 hs.symm).symm
  | some r =>
    rw [han] at hs
    obtain ⟨r', hbn, he⟩ := Option.map_eq_some_iff.1 hs.symm
    rw [hbn, ← ha.each n r han, ← hb.each n r' hbn, he]

theorem Settled.congr {a b merged : List Rule} (h : Settled a merged)
    (hs : (a.map (·.selector)).eraseDups = (b.map (·.selector)).eraseDups)
    (hw : ∀ n s, settle a n s = settle b n s) : Settled b merged :=
  ⟨h.selectors.trans hs, fun n r hr => (hw n r.selector).symm.trans (h.each n r hr)⟩

theorem Settled.mem_selectors {rules merged : List Rule} (h : Settled rules merged) (s : Text) :
    s ∈ merged.map (·.selector) ↔ s ∈ rules.map (·.selector) := by
  rw [h.selectors, List.mem_eraseDups]

theorem settle_eq_none {rules : List Rule} {s : Text} (n : Nat) (h : s ∉ rules.map (·.selector)) :
    settle rules n s = none := by
  simp [settle, first?_eq_none.2 h]

/-- a settled list has one rule for a selector, so it is the first one there as well as the last -/
theorem Settled.first?_eq {rules merged : List Rule} (h : Settled rules merged) (s : Text) :
    ∃ n, first? merged s = settle rules n s := by
  cases hf : first? merged s with
  | none => exact ⟨0, (settle_eq_none 0 fun hs => first?_eq_none.1 hf ((h.mem_selectors s).2 hs)).symm⟩
  | some f =>
    obtain ⟨n, hn⟩ := List.getElem?_of_mem (List.mem_of_find?_eq_some hf)
    exact ⟨n, (selector_of_first? hf ▸ h.each n f hn).symm⟩

theorem Settled.last?_eq {rules merged : List Rule} (h : Settled rules merged) (s : Text) :
    ∃ n, last? merged s = settle rules n s := by
  cases hl : last? merged s with
  | none => exact ⟨0, (settle_eq_none 0 fun hs => last?_eq_none.1 hl ((h.mem_selectors s).2 hs)).symm⟩
  | some l =>
    obtain ⟨n, hn⟩ := List.getElem?_of_mem (List.mem_reverse.1 (List.mem_of_find?_eq_some hl))
    exact ⟨n, (selector_of_last? hl ▸ h.each n l hn).symm⟩

/-- **A part of the rules may be settled beforehand.** -/
theorem settle_regroup {rules merged : List Rule} (h : Settled rules merged) (before after : List Rule) (n : Nat)
    (s : Text) : settle (before ++ merged ++ after) n s = settle (before ++ rules ++ after) n s := by
  obtain ⟨i, hi⟩ := h.first?_eq s
  obtain ⟨j, hj⟩ := h.last?_eq s
  unfold settle
  rw [first?_append, first?_append, first?_append, first?_append, last?_append, last?_append, last?_append,
    last?_append, hi, hj]
  unfold settle
  cases hf : first? rules s with
  | none => simp [last?_eq_none.2 (first?_eq_none.1 hf)]
  | some f =>
    cases hl : last? rules s with
    | none => exact absurd (first?_eq_none.2 (last?_eq_none.1 hl)) (by simp [hf])
    | some l => cases first? before s <;> cases last? after s <;> simp

theorem Settled.regroup {rules merged m : List Rule} (h : Settled rules merged) (before after : List Rule)
    (hm : Settled (before ++ merged ++ after) m) : Settled (before ++ rules ++ after) m := by
  refine hm.congr ?_ (settle_regroup h before after)
  rw [List.map_append, List.map_append, List.map_append, List.map_append]
  refine eraseDups_congr ?_ _ _
  rw [h.selectors, eraseDups_of_nodup (nodup_eraseDups _)]

theorem Settled.reapply {a b m : List Rule} (h : Settled (a ++ b ++ b) m) : Settled (a ++ b) m := by
  refine h.congr ?_ ?_
  · have hm : (a ++ b ++ b).map (·.selector) = (a ++ b).map (·.selector) ++ b.map (·.selector) := List.map_append
    rw [hm]
    exact eraseDups_append_of_subset fun x hx => by
      rw [List.map_append]
      exact List.mem_append_right _ hx
  · intro n s
    simp only [settle, first?_append, last?_append]
    cases first? a s <;> cases first? b s <;> cases last? b s <;> simp

/-! ## Merges -/

/-- **The rules of a merge.** They have the distinct selectors of the concatenated layers, in order of first
occurrence; the rule at place `n` is numbered `n`, has body and source of the last rule for its selector, and kind and
lines of the first. -/
theorem merge_rules_exact (layers : List (List Rule)) :
    let rules := layers.flatten
    let merged := (merge layers).rules
    merged.map (·.selector) = (rules.map (·.selector)).eraseDups ∧
    (merged.map (·.selector)).Nodup ∧
    ∀ (n : Nat) (r : Rule), merged[n]? = some r →
      r.position = n ∧
      (∃ l, rules.reverse.find? (·.selector = r.selector) = some l ∧ r.body = l.body ∧ r.source = l.source) ∧
      ∃ f, rules.find? (·.selector = r.selector) = some f ∧
        r.kind = f.kind ∧ r.line = f.line ∧ r.bodyLine = f.bodyLine := by
  intro rules merged
  have h : Settled rules merged := settled_merge layers
  refine ⟨h.selectors, ?_, ?_⟩
  · rw [h.selectors]
    exact nodup_eraseDups _
  · intro n r hr
    have hw := h.each n r hr
    unfold settle at hw
    obtain ⟨f, hf, hw⟩ := Option.bind_eq_some_iff.1 hw
    obtain ⟨l, hl, hw⟩ := Option.map_eq_some_iff.1 hw
    refine ⟨by rw [← hw], ⟨l, hl, ?_, ?_⟩, f, hf, ?_, ?_, ?_⟩ <;> rw [← hw]

theorem rules_merge_congr {a b : List (List Rule)} (h : a.flatten = b.flatten) : (merge a).rules = (merge b).rules := by
  rw [rules_merge, rules_merge, h]

theorem flatten_filter_nonempty (layers : List (List Rule)) :
    (layers.filter (!·.isEmpty)).flatten = layers.flatten := by
  induction layers with
  | nil => rfl
  | cons l ls ih => cases l <;> simp [ih]

/-- **Merging is associative and absorbing on rules.** Any run of layers may be merged beforehand, empty layers make no
difference wherever they stand, and applying the higher of two layers again changes nothing. -/
theorem merge_rules_regroup :
    (∀ before run after : List (List Rule),
      (merge (before ++ [(merge run).rules] ++ after)).rules = (merge (before ++ run ++ after)).rules) ∧
    (∀ before after : List (List Rule), (merge (before ++ [] :: after)).rules = (merge (before ++ after)).rules) ∧
    (∀ layers : List (List Rule), (merge (layers.filter (!·.isEmpty))).rules = (merge layers).rules) ∧
    ∀ a b : List Rule, (merge [(merge [a, b]).rules, b]).rules = (merge [a, b]).rules := by
  refine ⟨?_, ?_, ?_, ?_⟩
  · intro before run after
    have h := settled_merge (before ++ [(merge run).rules] ++ after)
    have h' := settled_merge (before ++ run ++ after)
    rw [List.flatten_append, List.flatten_append, List.flatten_singleton] at h
    rw [List.flatten_append, List.flatten_append] at h'
    exact ((settled_merge run).regroup _ _ h).unique h'
  · intro before after
    exact rules_merge_congr (by simp)
  · intro layers
    exact rules_merge_congr (flatten_filter_nonempty layers)
  · intro a b
    have hab : Settled (a ++ b) (merge [a, b]).rules := by simpa using settled_merge [a, b]
    have h : Settled ([] ++ (merge [a, b]).rules ++ b) (merge [(merge [a, b]).rules, b]).rules := by
      simpa using settled_merge [(merge [a, b]).rules, b]
    exact (hab.regroup [] b h).reapply.unique hab

end StyleCheck.Cascade
