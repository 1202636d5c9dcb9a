/-
Warnings of a merge, said without the machine.

A rule without a body warns as soon as an earlier rule has its selector, whatever follows. For the warnings the layers
do not matter either: `emptyings` reads them off the concatenated layers, each rule beside those before it, and names
the last of them as the one replaced. Whether the result has an empty body is decided by the last rule of a selector
alone (`LeftEmpty`), so a warning may name a selector that has got a body again.
- `reads_apply`: what one rule does to the warnings and to the sources that the slots show; `reads_run`: so does
  every run;
- `mem_emptyings`: which rules warn;
- `leftEmpty_iff`: which selectors are left empty, told from the rules of the merge;
- `warnings_exact`: all selectors left empty are named, and all others that are named have a body.
-/
import StyleCheck.Proofs.Cascade.Contention

namespace StyleCheck.Cascade

/-! ## Warnings without the layers -/

/-- the warning that a rule gives behind other rules -/
def emptied? (earlier : List Rule) (r : Rule) : Option ValuelessOverride :=
  if r.body.isEmpty then (last? earlier r.selector).map fun p => ⟨r.selector, r.source, p.source⟩ else none

/-- the warnings that rules give behind other rules, one rule after the other -/
def emptyings (earlier : List Rule) : List Rule → List ValuelessOverride
  | [] => []
  | r :: rules => (emptied? earlier r).toList ++ emptyings (earlier ++ [r]) rules

theorem emptyings_append (earlier a b : List Rule) :
    emptyings earlier (a ++ b) = emptyings earlier a ++ emptyings (earlier ++ a) b := by
  induction a generalizing earlier with
  | nil => simp [emptyings]
  | cons r a ih => simp [emptyings, ih]

theorem emptyings_concat (rules : List Rule) (r : Rule) :
    emptyings [] (rules ++ [r]) = emptyings [] rules ++ (emptied? rules r).toList := by
  rw [emptyings_append, List.nil_append, emptyings, emptyings, List.append_nil]

/-- rules with bodies never warn -/
theorem emptyings_of_visible {rules : List Rule} (h : ∀ r ∈ rules, r.body ≠ []) (earlier : List Rule) :
    emptyings earlier rules = [] := by
  induction rules generalizing earlier with
  | nil => rfl
  | cons r rules ih =>
    have hr : r.body.isEmpty = false := List.isEmpty_eq_false_iff.2 (h r List.mem_cons_self)
    have hone : emptied? earlier r = none := if_neg (by rw [hr]; exact Bool.false_ne_true)
    rw [emptyings, hone, ih fun r' hr' => h r' (List.mem_cons_of_mem r hr')]
    rfl

/-! ## One rule and every run -/

/-- the state has read the rules: its slots show the last sources, its warnings are those of the rules -/
structure Reads (rules : List Rule) (st : St) : Prop where
  shown : ∀ s, (st.slot? s).map (·.rule.source) = (last? rules s).map (·.source)
  warned : st.warnings = emptyings [] rules

theorem warnings_apply_none {layer : Nat} {st : St} {r : Rule} (h : st.slot? r.selector = none) :
    (apply layer st r).warnings = st.warnings := by
  unfold St.slot? at h
  simp only [apply, h]

theorem warnings_apply_some {layer : Nat} {st : St} {r : Rule} {t : Slot} (h : st.slot? r.selector = some t) :
    (apply layer st r).warnings =
      if r.body.isEmpty then st.warnings ++ [⟨r.selector, r.source, t.rule.source⟩] else st.warnings := by
  unfold St.slot? at h
  simp only [apply, h]

theorem reads_start : Reads [] start := ⟨fun _ => rfl, rfl⟩

/-- the warning of one rule is told from the source its slot shows -/
theorem warnings_apply {rules : List Rule} {st : St} (h : Reads rules st) (layer : Nat) (r : Rule) :
    (apply layer st r).warnings = st.warnings ++ (emptied? rules r).toList := by
  have hshown := h.shown r.selector
  cases ht : st.slot? r.selector with
  | none =>
    rw [ht, Option.map_none] at hshown
    have hlast : last? rules r.selector = none := Option.map_eq_none_iff.1 hshown.symm
    rw [warnings_apply_none ht, emptied?, hlast]
    simp
  | some t =>
    rw [ht, Option.map_some] at hshown
    obtain ⟨p, hp, hsource⟩ := Option.map_eq_some_iff.1 hshown.symm
    rw [warnings_apply_some ht, emptied?, hp, ← hsource]
    by_cases hr : r.body.isEmpty = true <;> simp [hr]

/-- **One rule.** It warns if it has no body and is not the first for its selector, and its slot shows its source. -/
theorem reads_apply {rules : List Rule} {st : St} (h : Reads rules st) (layer : Nat) (r : Rule) :
    Reads (rules ++ [r]) (apply layer st r) := by
  constructor
  · intro s
    rw [last?_append, last?_singleton]
    by_cases hs : r.selector = s
    · subst hs
      obtain ⟨t, ht, hsource, -, -⟩ := slot?_apply_self layer st r
      rw [ht, if_pos rfl, Option.map_some, hsource]
      rfl
    · rw [slot?_apply_of_ne layer st hs, if_neg hs, Option.none_or]
      exact h.shown s
  · rw [warnings_apply h, h.warned, emptyings_concat]

theorem reads_applyLayer {read : List Rule} {st : St} (h : Reads read st) (rules : List Rule) (layer : Nat) :
    Reads (read ++ rules) (applyLayer st (rules, layer)) := by
  unfold applyLayer
  induction rules generalizing read st with
  | nil => simpa using h
  | cons r rules ih =>
    have h' := ih (reads_apply h layer r)
    rwa [List.append_assoc, List.singleton_append] at h'

/-- **Every run** reads the concatenated layers. -/
theorem reads_run {read : List Rule} {st : St} (h : Reads read st) (layers : List (List Rule)) (n : Nat) :
    Reads (read ++ layers.flatten) ((layers.zipIdx n).foldl applyLayer st) := by
  induction layers generalizing read st n with
  | nil => simpa using h
  | cons rules layers ih =>
    rw [List.zipIdx_cons, List.foldl_cons, List.flatten_cons, ← List.append_assoc]
    exact ih (reads_applyLayer h rules n) (n + 1)

/-- a merge warns as its concatenated layers do -/
theorem warnings_merge (layers : List (List Rule)) : (merge layers).warnings = emptyings [] layers.flatten :=
  (reads_run reads_start layers 0).warned

/-! ## Who warns and who is left empty -/

/-- **The rules that warn** are those without a body behind another rule for their selector. -/
theorem mem_emptyings {earlier rules : List Rule} {w : ValuelessOverride} :
    w ∈ emptyings earlier rules ↔
      ∃ before r after, rules = before ++ r :: after ∧ emptied? (earlier ++ before) r = some w := by
  induction rules generalizing earlier with
  | nil => simp [emptyings]
  | cons r rules ih =>
    rw [emptyings, List.mem_append, Option.mem_toList, ih]
    constructor
    · rintro (h | ⟨before, r', after, rfl, h⟩)
      · exact ⟨[], r, rules, rfl, by rwa [List.append_nil]⟩
      · exact ⟨r :: before, r', after, rfl, by rwa [List.append_cons]⟩
    · rintro ⟨before, r', after, hsplit, h⟩
      rcases List.cons_eq_append_iff.1 hsplit with ⟨rfl, hr⟩ | ⟨before, rfl, rfl⟩
      · obtain ⟨rfl, rfl⟩ := List.cons.inj hr
        rw [List.append_nil] at h
        exact Or.inl h
      · rw [List.append_cons] at h
        exact Or.inr ⟨before, r', after, rfl, h⟩

theorem emptied?_isSome {earlier : List Rule} {r : Rule} :
    (emptied? earlier r).isSome ↔ r.body = [] ∧ r.selector ∈ earlier.map (·.selector) := by
  have hlast : (last? earlier r.selector).isSome ↔ r.selector ∈ earlier.map (·.selector) := by
    rw [← not_iff_not, Option.not_isSome_iff_eq_none, last?_eq_none]
  unfold emptied?
  by_cases hr : r.body.isEmpty = true
  · rw [if_pos hr, Option.isSome_map, hlast]
    exact ⟨fun h => ⟨List.isEmpty_iff.1 hr, h⟩, fun h => h.2⟩
  · rw [if_neg hr]
    exact ⟨fun h => (Bool.false_ne_true h).elim, fun h => (hr (List.isEmpty_iff.2 h.1)).elim⟩

theorem selector_of_emptied? {earlier : List Rule} {r : Rule} {w : ValuelessOverride}
    (h : emptied? earlier r = some w) : w.selector = r.selector := by
  unfold emptied? at h
  split at h
  · obtain ⟨p, -, rfl⟩ := Option.map_eq_some_iff.1 h
    rfl
  · cases h

/-- `r` stands in `rules` without a body, behind another rule for its selector -/
def Empties (rules before : List Rule) (r : Rule) (after : List Rule) : Prop :=
  rules = before ++ r :: after ∧ r.body = [] ∧ r.selector ∈ before.map (·.selector)

/-- the last rule for a selector has no body and is not the first one -/
def LeftEmpty (rules : List Rule) (s : Text) : Prop :=
  ∃ before r after, Empties rules before r after ∧ r.selector = s ∧ s ∉ after.map (·.selector)

theorem mem_selectors_emptyings {rules : List Rule} {s : Text} :
    s ∈ (emptyings [] rules).map (·.selector) ↔
      ∃ before r after, Empties rules before r after ∧ r.selector = s := by
  rw [List.mem_map]
  constructor
  · rintro ⟨w, hw, rfl⟩
    obtain ⟨before, r, after, hsplit, he⟩ := mem_emptyings.1 hw
    have hsome : (emptied? before r).isSome := Option.isSome_iff_exists.2 ⟨w, he⟩
    exact ⟨before, r, after, ⟨hsplit, emptied?_isSome.1 hsome⟩, (selector_of_emptied? he).symm⟩
  · rintro ⟨before, r, after, ⟨hsplit, hr⟩, rfl⟩
    obtain ⟨w, hw⟩ := Option.isSome_iff_exists.1 (emptied?_isSome.2 hr)
    exact ⟨w, mem_emptyings.2 ⟨before, r, after, hsplit, hw⟩, selector_of_emptied? hw⟩

theorem last?_eq_some {rules : List Rule} {s : Text} {l : Rule} :
    last? rules s = some l ↔
      ∃ before after, rules = before ++ l :: after ∧ l.selector = s ∧ s ∉ after.map (·.selector) := by
  constructor
  · intro h
    obtain ⟨hl, after, before, hsplit, hafter⟩ := List.find?_eq_some_iff_append.1 h
    refine ⟨before.reverse, after.reverse, ?_, by simpa using hl, ?_⟩
    · rw [← List.reverse_reverse rules, hsplit]
      simp
    · intro hs
      obtain ⟨r, hr, hrs⟩ := List.mem_map.1 hs
      have := hafter r (List.mem_reverse.1 hr)
      simp [hrs] at this
  · rintro ⟨before, after, rfl, hl, hs⟩
    rw [List.append_cons, last?_append, last?_append, last?_singleton, if_pos hl, last?_eq_none.2 hs]
    rfl

theorem filter_selector_pos {rules : List Rule} {s : Text} :
    0 < (rules.filter (·.selector = s)).length ↔ s ∈ rules.map (·.selector) := by
  rw [List.length_pos_iff_exists_mem, List.mem_map]
  simp only [List.mem_filter, decide_eq_true_eq]

/-- the rules for a selector, counted around one of them -/
theorem length_filter_selector (before after : List Rule) {l : Rule} {s : Text} (hl : l.selector = s) :
    ((before ++ l :: after).filter (·.selector = s)).length =
      (before.filter (·.selector = s)).length + 1 + (after.filter (·.selector = s)).length := by
  rw [List.filter_append, List.filter_cons, if_pos (decide_eq_true hl), List.length_append, List.length_cons]
  omega

theorem Empties.twice {rules before after : List Rule} {r : Rule} (h : Empties rules before r after) :
    2 ≤ (rules.filter (·.selector = r.selector)).length := by
  obtain ⟨rfl, -, hbefore⟩ := h
  have hpos := filter_selector_pos.2 hbefore
  rw [length_filter_selector before after rfl]
  omega

theorem leftEmpty_iff_last? {rules : List Rule} {s : Text} :
    LeftEmpty rules s ↔
      2 ≤ (rules.filter (·.selector = s)).length ∧ ∃ l, last? rules s = some l ∧ l.body = [] := by
  constructor
  · rintro ⟨before, r, after, he, rfl, hafter⟩
    exact ⟨he.twice, r, last?_eq_some.2 ⟨before, after, he.1, rfl, hafter⟩, he.2.1⟩
  · rintro ⟨htwice, l, hlast, hbody⟩
    obtain ⟨before, after, rfl, rfl, hafter⟩ := last?_eq_some.1 hlast
    have hnone := mt filter_selector_pos.1 hafter
    have hbefore : l.selector ∈ before.map (·.selector) := by
      rw [length_filter_selector before after rfl] at htwice
      exact filter_selector_pos.1 (by omega)
    exact ⟨before, l, after, ⟨rfl, hbody, hbefore⟩, rfl, hafter⟩

/-- **A selector is left empty** if its rule in the merge has no body and was not the only one for it. -/
theorem leftEmpty_iff {layers : List (List Rule)} {s : Text} :
    LeftEmpty layers.flatten s ↔
      2 ≤ (layers.flatten.filter (·.selector = s)).length ∧
        ∃ r ∈ (merge layers).rules, r.selector = s ∧ r.body = [] := by
  rw [leftEmpty_iff_last?]
  apply and_congr_right
  intro _
  constructor
  · rintro ⟨l, hl, hbody⟩
    obtain ⟨r, hr, hs, hrl⟩ := exists_mem_merge hl
    exact ⟨r, hr, hs, hrl.trans hbody⟩
  · rintro ⟨r, hr, rfl, hbody⟩
    obtain ⟨f, l, n, -, hl, he⟩ := ends_of_mem_merge hr
    have hrl : r.body = l.body := by rw [he]
    exact ⟨l, hl, hrl.symm.trans hbody⟩

/-! ## The warnings of a merge -/

/-- **The warnings of a merge.** There is one for every rule without a body that is not the first for its selector, in
the order of the rules. All selectors whose merged rule was emptied are named, and a selector that is named without
being left empty has a merged rule with a body. -/
theorem warnings_exact (layers : List (List Rule)) :
    let rules := layers.flatten
    let merged := merge layers
    let named := merged.warnings.map (·.selector)
    merged.warnings = emptyings [] rules ∧
    (∀ s, s ∈ named ↔ ∃ before r after, Empties rules before r after ∧ r.selector = s) ∧
    (∀ s, LeftEmpty rules s ↔
      2 ≤ (rules.filter (·.selector = s)).length ∧ ∃ r ∈ merged.rules, r.selector = s ∧ r.body = []) ∧
    (∀ s, LeftEmpty rules s → s ∈ named) ∧
    ∀ s ∈ named, ¬LeftEmpty rules s → ∃ r ∈ merged.rules, r.selector = s ∧ r.body ≠ [] := by
  intro rules merged named
  have hwarnings : merged.warnings = emptyings [] rules := warnings_merge layers
  have hnamed : ∀ s, s ∈ named ↔ ∃ before r after, Empties rules before r after ∧ r.selector = s := by
    intro s
    rw [← mem_selectors_emptyings, ← hwarnings]
  refine ⟨hwarnings, hnamed, fun s => leftEmpty_iff, ?_, ?_⟩
  · rintro s ⟨before, r, after, he, hs, -⟩
    exact (hnamed s).2 ⟨before, r, after, he, hs⟩
  · intro s hs hleft
    obtain ⟨before, r, after, he, rfl⟩ := (hnamed s).1 hs
    cases hl : last? rules r.selector with
    | none =>
      have hmem : r.selector ∈ rules.map (·.selector) := by
        rw [he.1, List.map_append, List.mem_append]
        exact Or.inl he.2.2
      exact (last?_eq_none.1 hl hmem).elim
    | some l =>
      obtain ⟨m, hm, hms, hbody⟩ := exists_mem_merge hl
      refine ⟨m, hm, hms, ?_⟩
      intro hnil
      exact hleft (leftEmpty_iff_last?.2 ⟨he.twice, l, hl, hbody.symm.trans hnil⟩)

/-- one selector in three layers, emptied by the second and filled again by the third -/
def refilled : List (List Rule) :=
  let rule (source : Nat) (body : Text) : Rule := .ofTexts ".a".toList body ⟨source⟩ 0
  [[rule 0 "b: c".toList], [rule 1 []], [rule 2 "d: e".toList]]

/-- a warning outlives the empty body it is about -/
theorem warnings_refilled :
    ¬∀ (layers : List (List Rule)) (s : Text),
      s ∈ (merge layers).warnings.map (·.selector) ↔ LeftEmpty layers.flatten s := by
  intro h
  have hnamed : ".a".toList ∈ (merge refilled).warnings.map (·.selector) := by decide +kernel
  have hfull : ∀ r ∈ (merge refilled).rules, r.body ≠ [] := by decide +kernel
  obtain ⟨-, r, hr, -, hbody⟩ := leftEmpty_iff.1 ((h refilled _).1 hnamed)
  exact hfull r hr hbody

end StyleCheck.Cascade
