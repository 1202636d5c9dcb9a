/-
Comparisons of custom properties are exact and dual.

A map that was built scope by scope and property by property keeps both in ascending order, and has no scope without a
property (`WellFormed`). So a present scope that is absent makes itself known: all properties of the reference are
missing then, and there is at least one.
- `wellFormed_insert`, `wellFormed_of_built`: setting a property keeps maps well-formed, so all that are built are;
- `scope?_compute`: every scope of the reference is compared with the present scope of its key, there or not;
- `compute_eq`, `compute_split`, `mem_extra`, `mem_changed`: the lists of one comparison, by the names on both sides;
- `compute_swap`: the comparison of one scope the other way round;
- `isClean_iff`: a comparison is clean if the maps differ in nothing but blanks around values;
- `compute_exact`: all of this, for maps as a whole.
-/
import StyleCheck.Stylesheet
import StyleCheck.Variable.Diff
import StyleCheck.Proofs.Integrity.Rounding
import StyleCheck.Proofs.Text.Order
import StyleCheck.Proofs.Variable.Dictionary

namespace StyleCheck

/-! ## Maps that can be built -/

namespace VariableMap

/-- the names in a scope, in order; none where there is no such scope -/
def names (m : VariableMap) (key : Text) : List Text := ((m.scope? key).map (·.keys)).getD []

/-- the maps that can be built; `ofRules` adds rules to the empty one -/
inductive Built : VariableMap → Prop where
  | empty : Built empty
  | insert {m : VariableMap} (scope name value : Text) : Built m → Built (m.insert scope name value)
  | addRules {m : VariableMap} (config : ScopeConfig) (rules : List Rule) : Built m → Built (addRules config m rules)

/-- scopes and properties are in order, and no scope is without a property -/
structure WellFormed (m : VariableMap) : Prop where
  sorted : m.scopes.Sorted
  each : ∀ {key : Text} {d : Dictionary Text}, m.scope? key = some d → d.Sorted ∧ d.keys ≠ []

theorem wellFormed_empty : WellFormed empty := ⟨Dictionary.sorted_empty, fun h => by cases h⟩

/-- **Setting a property keeps a map well-formed.** -/
theorem wellFormed_insert {m : VariableMap} (h : m.WellFormed) (scope name value : Text) :
    (m.insert scope name value).WellFormed := by
  refine ⟨Dictionary.sorted_alter scope _ h.sorted, ?_⟩
  intro key d hd
  by_cases hkey : scope = key
  · -- the scope is a dictionary in order, or a new one, with the property set in it
    subst hkey
    have hself : (m.insert scope name value).scope? scope = some (((m.scope? scope).getD .empty).insert name value) :=
      Dictionary.get?_alter_self scope _ h.sorted
    obtain rfl := Option.some.inj (hself.symm.trans hd)
    have hsorted : ((m.scope? scope).getD .empty).Sorted := by
      cases hm : m.scope? scope with
      | none => exact Dictionary.sorted_empty
      | some d => exact (h.each hm).1
    refine ⟨Dictionary.sorted_alter name _ hsorted, List.ne_nil_of_mem (a := name) ?_⟩
    have hvalue : (((m.scope? scope).getD .empty).insert name value).get? name = some value :=
      Dictionary.get?_alter_self name _ hsorted
    rw [Dictionary.mem_keys_iff, hvalue]
    rfl
  · have hother : (m.insert scope name value).scope? key = m.scope? key :=
      Dictionary.get?_alter_of_ne scope _ m.scopes hkey
    exact h.each (hother.symm.trans hd)

theorem wellFormed_foldl {m : VariableMap} (h : m.WellFormed) (as : List (Text × Text × Text)) :
    (as.foldl (fun m (scope, name, value) => m.insert scope name value) m).WellFormed := by
  induction as generalizing m with
  | nil => exact h
  | cons a as ih => exact ih (wellFormed_insert h a.1 a.2.1 a.2.2)

theorem wellFormed_addRules {m : VariableMap} (h : m.WellFormed) (config : ScopeConfig) (rules : List Rule) :
    (addRules config m rules).WellFormed := wellFormed_foldl h (rules.flatMap (assignments config))

theorem wellFormed_of_built {m : VariableMap} (h : Built m) : m.WellFormed := by
  induction h with
  | empty => exact wellFormed_empty
  | insert scope name value _ ih => exact wellFormed_insert ih scope name value
  | addRules config rules _ ih => exact wellFormed_addRules ih config rules

section
variable {m : VariableMap} {key n : Text}

theorem mem_keys : key ∈ m.keys ↔ ∃ d, m.scope? key = some d := by
  rw [← Option.isSome_iff_exists]
  exact Dictionary.mem_keys_iff

theorem isNone_scope? (m : VariableMap) (key : Text) : (m.scope? key).isNone = !m.keys.contains key := by
  rw [← Option.not_isSome]
  exact congrArg _ ((Dictionary.isSome_get? _ _).trans (Dictionary.contains_eq _ _))

theorem names_of_scope? {d : Dictionary Text} (h : m.scope? key = some d) : m.names key = d.keys := by
  unfold names
  rw [h]
  rfl

theorem names_of_not_mem (h : key ∉ m.keys) : m.names key = [] := by
  have hnone : m.scope? key = none := Option.eq_none_iff_forall_ne_some.2 fun d hd => h (mem_keys.2 ⟨d, hd⟩)
  unfold names
  rw [hnone]
  rfl

theorem mem_names : n ∈ m.names key ↔ ∃ value, m.get? key n = some value := by
  unfold names get?
  cases m.scope? key with
  | none => simp
  | some d => exact Dictionary.mem_keys_iff.trans Option.isSome_iff_exists

theorem get?_eq_none (h : n ∉ m.names key) : m.get? key n = none :=
  Option.eq_none_iff_forall_ne_some.2 fun value hvalue => h (mem_names.2 ⟨value, hvalue⟩)

theorem WellFormed.keys_pairwise (h : m.WellFormed) : m.keys.Pairwise (· < ·) := h.sorted.keys

theorem WellFormed.names_pairwise (h : m.WellFormed) (key : Text) : (m.names key).Pairwise (· < ·) := by
  by_cases hkey : key ∈ m.keys
  · obtain ⟨d, hd⟩ := mem_keys.1 hkey
    rw [names_of_scope? hd]
    exact (h.each hd).1.keys
  · rw [names_of_not_mem hkey]
    exact List.Pairwise.nil

/-- a scope is there if it has a name in it -/
theorem WellFormed.mem_keys_iff (h : m.WellFormed) : key ∈ m.keys ↔ m.names key ≠ [] := by
  constructor
  · intro hkey
    obtain ⟨d, hd⟩ := mem_keys.1 hkey
    rw [names_of_scope? hd]
    exact (h.each hd).2
  · intro hnames
    by_contra hkey
    exact hnames (names_of_not_mem hkey)

end

end VariableMap

/-! ## One scope -/

/-- the change seen from the other side -/
def ChangedVariable.swap (v : ChangedVariable) : ChangedVariable := ⟨v.name, v.current, v.reference⟩

namespace ScopeDiff

open VariableMap Text

@[simp] theorem compute_scope (key : Text) (d : Dictionary Text) (o : Option (Dictionary Text)) :
    (compute key d o).scope = key := by cases o <;> rfl

@[simp] theorem compute_absent (key : Text) (d : Dictionary Text) (o : Option (Dictionary Text)) :
    (compute key d o).absent = o.isNone := by cases o <;> rfl

theorem get?_getD (m : VariableMap) (key n : Text) : ((m.scope? key).getD .empty).get? n = m.get? key n := by
  unfold VariableMap.get?
  cases m.scope? key <;> rfl

theorem change?_eq_some_iff {current : Dictionary Text} {e : Text × Text} {v : ChangedVariable} :
    change? current e = some v ↔
      e = (v.name, v.reference) ∧ current.get? v.name = some v.current ∧ trim v.reference ≠ trim v.current := by
  unfold change?
  rw [Option.bind_eq_some_iff]
  constructor
  · rintro ⟨value, hvalue, h⟩
    split_ifs at h with htrim
    cases h
    exact ⟨rfl, hvalue, fun h => htrim h.symm⟩
  · rintro ⟨rfl, hvalue, htrim⟩
    exact ⟨v.current, hvalue, if_neg fun h => htrim h.symm⟩

section
variable {r : VariableMap} (c : VariableMap) {key : Text} {d : Dictionary Text} (hd : r.scope? key = some d)

include hd

/-- **The comparison of a scope by the names on both sides**, of which the present has none if its scope is absent. -/
theorem compute_eq :
    compute key d (c.scope? key) =
      { scope := key
        missing := (r.names key).filter (!(c.names key).contains ·)
        extra := (c.names key).filter (!(r.names key).contains ·)
        changed := d.entries.filterMap (change? ((c.scope? key).getD .empty))
        preserved := ((r.names key).filter ((c.names key).contains ·)).length
        absent := !c.keys.contains key } := by
  have hempty (e : Text × Text) : change? .empty e = none := rfl
  have hcontains (e : Dictionary Text) : e.contains = (e.keys.contains ·) := funext (Dictionary.contains_eq e)
  rw [← isNone_scope?, names_of_scope? hd]
  unfold names
  cases c.scope? key with
  | none => simp [compute, hempty]
  | some e => simp [compute, hcontains]

/-- a property has changed if both sides have it, with values that differ within the blanks around them -/
theorem mem_changed (hsorted : d.Sorted) {v : ChangedVariable} :
    v ∈ (compute key d (c.scope? key)).changed ↔
      r.get? key v.name = some v.reference ∧ c.get? key v.name = some v.current ∧
        trim v.reference ≠ trim v.current := by
  have hget : r.get? key v.name = some v.reference ↔ (v.name, v.reference) ∈ d.entries := by
    unfold VariableMap.get?
    rw [hd]
    exact hsorted.get?_eq_some_iff
  rw [compute_eq c hd, List.mem_filterMap, hget]
  simp only [change?_eq_some_iff, get?_getD]
  exact ⟨fun ⟨e, he, heq, h⟩ => ⟨heq ▸ he, h⟩, fun ⟨he, h⟩ => ⟨_, he, rfl, h⟩⟩

theorem changed_pairwise (hsorted : d.Sorted) :
    (compute key d (c.scope? key)).changed.Pairwise fun v w => v.name < w.name := by
  rw [compute_eq c hd]
  refine List.pairwise_filterMap.2 (List.Pairwise.imp (fun {e e'} hlt v hv w hw => ?_) hsorted)
  rw [(change?_eq_some_iff.1 hv).1, (change?_eq_some_iff.1 hw).1] at hlt
  exact hlt

/-- **The names of the reference are split into those missing and those preserved**, which are counted. -/
theorem compute_split :
    let s := compute key d (c.scope? key)
    let kept := (r.names key).filter ((c.names key).contains ·)
    (s.missing ++ kept).Perm (r.names key) ∧ s.missing.Disjoint kept ∧ s.preserved = kept.length ∧
      s.preserved + s.missing.length = (r.names key).length := by
  intro s kept
  have hs : s = _ := compute_eq c hd
  have hperm : (s.missing ++ kept).Perm (r.names key) := by
    rw [hs]
    exact List.perm_append_comm.trans (List.filter_append_perm ((c.names key).contains ·) (r.names key))
  have hpreserved : s.preserved = kept.length := by rw [hs]
  refine ⟨hperm, ?_, hpreserved, ?_⟩
  · intro n hn hn'
    rw [hs] at hn
    have hlost := (List.mem_filter.1 hn).2
    rw [(List.mem_filter.1 hn').2] at hlost
    cases hlost
  · have hlength := hperm.length_eq
    rw [List.length_append, ← hpreserved] at hlength
    omega

/-- a name is extra if only the present has it -/
theorem mem_extra {n : Text} : n ∈ (compute key d (c.scope? key)).extra ↔ n ∈ c.names key ∧ n ∉ r.names key := by
  rw [compute_eq c hd, List.mem_filter, Bool.not_eq_true', ← Bool.not_eq_true, List.contains_iff_mem]

/-- **All names of a scope that is absent are missing.** -/
theorem compute_of_absent (habsent : key ∉ c.keys) :
    (compute key d (c.scope? key)).missing = r.names key ∧ (compute key d (c.scope? key)).preserved = 0 := by
  rw [compute_eq c hd, names_of_not_mem habsent]
  simp

/-- so its score is zero, and not for lack of data: the scope has a name in it -/
theorem score_of_absent (hr : r.WellFormed) (habsent : key ∉ c.keys) :
    (compute key d (c.scope? key)).score = .percent 0 := by
  obtain ⟨hmissing, hpreserved⟩ := compute_of_absent c hd habsent
  have hnames : (r.names key).length ≠ 0 := by
    rw [names_of_scope? hd, Ne, List.length_eq_zero_iff]
    exact (hr.each hd).2
  unfold score
  rw [hmissing, hpreserved, Nat.zero_add]
  exact Score.ofCounts_zero hnames

end

theorem filter_absent_eq_nil {names others : List Text} :
    names.filter (!others.contains ·) = [] ↔ ∀ n ∈ names, n ∈ others := by
  simp [List.filter_eq_nil_iff]

section
variable {r c : VariableMap} (hr : r.WellFormed) (hc : c.WellFormed) {key : Text} {d : Dictionary Text}
  (hd : r.scope? key = some d)

include hr hc hd

/-- **A scope is clean if both sides have the same names in it**, with values that are equal once trimmed. -/
theorem isClean_iff :
    (compute key d (c.scope? key)).isClean = true ↔
      r.names key = c.names key ∧ ∀ n, (r.get? key n).map trim = (c.get? key n).map trim := by
  have hlists : (compute key d (c.scope? key)).isClean = true ↔
      (∀ n ∈ r.names key, n ∈ c.names key) ∧ (∀ n ∈ c.names key, n ∈ r.names key) ∧
        ∀ v, v ∉ (compute key d (c.scope? key)).changed := by
    have hmissing := congrArg missing (compute_eq c hd)
    have hextra := congrArg extra (compute_eq c hd)
    unfold isClean
    rw [hmissing, hextra, Bool.and_eq_true, Bool.and_eq_true, List.isEmpty_iff, List.isEmpty_iff, List.isEmpty_iff,
      filter_absent_eq_nil, filter_absent_eq_nil, List.eq_nil_iff_forall_not_mem, and_assoc]
  have hsorted := (hr.each hd).1
  rw [hlists]
  constructor
  · rintro ⟨hkept, hknown, hsame⟩
    have hnames : r.names key = c.names key :=
      Dictionary.eq_of_mem_iff id (hr.names_pairwise key) (hc.names_pairwise key) fun n => ⟨hkept n, hknown n⟩
    refine ⟨hnames, fun n => ?_⟩
    by_cases hn : n ∈ r.names key
    · obtain ⟨old, hold⟩ := mem_names.1 hn
      obtain ⟨new, hnew⟩ := mem_names.1 (hkept n hn)
      rw [hold, hnew]
      by_contra hne
      have htrim : trim old ≠ trim new := fun h => hne (congrArg some h)
      exact hsame ⟨n, old, new⟩ ((mem_changed c hd hsorted).2 ⟨hold, hnew, htrim⟩)
    · rw [get?_eq_none hn, get?_eq_none (hnames ▸ hn)]
  · rintro ⟨hnames, hvalues⟩
    refine ⟨fun n hn => hnames ▸ hn, fun n hn => hnames ▸ hn, fun v hv => ?_⟩
    obtain ⟨hold, hnew, htrim⟩ := (mem_changed c hd hsorted).1 hv
    have h := hvalues v.name
    rw [hold, hnew] at h
    exact htrim (Option.some.inj h)

/-- **All lists ascend.** -/
theorem compute_ascending :
    let s := compute key d (c.scope? key)
    Ascending s.missing ∧ Ascending s.extra ∧ Ascending (s.changed.map (·.name)) := by
  intro s
  have hs : s = _ := compute_eq c hd
  have hchanged : (s.changed.map (·.name)).Pairwise (· < ·) :=
    List.pairwise_map.2 (changed_pairwise c hd (hr.each hd).1)
  refine ⟨ascending_of_pairwise ?_, ascending_of_pairwise ?_, ascending_of_pairwise hchanged⟩
  · rw [hs]
    exact (hr.names_pairwise key).filter _
  · rw [hs]
    exact (hc.names_pairwise key).filter _

/-- **Comparing a scope the other way round** exchanges missing and extra names and the sides of every change. -/
theorem compute_swap {e : Dictionary Text} (he : c.scope? key = some e) :
    let s := compute key d (c.scope? key)
    let t := compute key e (r.scope? key)
    s.missing = t.extra ∧ s.extra = t.missing ∧ s.changed = t.changed.map ChangedVariable.swap := by
  intro s t
  have hs := compute_eq c hd
  have ht := compute_eq r he
  refine ⟨(congrArg missing hs).trans (congrArg extra ht).symm, (congrArg extra hs).trans (congrArg missing ht).symm, ?_⟩
  have hd' := (hr.each hd).1
  have he' := (hc.each he).1
  refine Dictionary.eq_of_mem_iff ChangedVariable.name (changed_pairwise c hd hd') ?_ fun v => ?_
  · exact List.pairwise_map.2 (changed_pairwise r he he')
  · rw [mem_changed c hd hd', List.mem_map]
    constructor
    · rintro ⟨hold, hnew, htrim⟩
      exact ⟨v.swap, (mem_changed r he he').2 ⟨hnew, hold, htrim.symm⟩, rfl⟩
    · rintro ⟨w, hw, rfl⟩
      obtain ⟨hold, hnew, htrim⟩ := (mem_changed r he he').1 hw
      exact ⟨hnew, hold, htrim.symm⟩

end

end ScopeDiff

/-! ## Maps -/

namespace VariableDiff

open VariableMap Text

variable {r c : VariableMap}

/-- a scope of the reference is compared with the present scope of its key -/
theorem scope?_compute (r c : VariableMap) (key : Text) :
    (compute r c).scope? key = (r.scope? key).map fun d => .compute key d (c.scope? key) := by
  have hfind : (compute r c).scope? key =
      (r.scopes.entries.find? (·.1 = key)).map fun e => .compute e.1 e.2 (c.scope? e.1) := by
    unfold scope? compute
    simp only
    rw [List.find?_map]
    simp only [Function.comp_def, ScopeDiff.compute_scope]
  rw [hfind]
  unfold VariableMap.scope? Dictionary.get?
  cases he : r.scopes.entries.find? (·.1 = key) with
  | none => rfl
  | some e =>
    have hkey : e.1 = key := by simpa using List.find?_some he
    rw [← hkey]
    rfl

/-- every comparison is that of a scope of the reference -/
theorem mem_scopes (h : r.WellFormed) {s : ScopeDiff} :
    s ∈ (compute r c).scopes ↔ ∃ key d, r.scope? key = some d ∧ s = .compute key d (c.scope? key) := by
  unfold compute
  rw [List.mem_map]
  constructor
  · rintro ⟨⟨key, d⟩, he, rfl⟩
    exact ⟨key, d, h.sorted.get?_eq_some_iff.2 he, rfl⟩
  · rintro ⟨key, d, hd, rfl⟩
    exact ⟨(key, d), h.sorted.get?_eq_some_iff.1 hd, rfl⟩

theorem unmatched_eq (r c : VariableMap) : (compute r c).unmatched = c.keys.filter (!r.keys.contains ·) := by
  unfold compute
  simp only [Dictionary.contains_eq]
  rfl

/-- **A comparison is clean if both maps have the same scopes and names**, with values that are equal once trimmed. -/
theorem isClean_iff (hr : r.WellFormed) (hc : c.WellFormed) :
    (compute r c).isClean = true ↔
      r.keys = c.keys ∧ (∀ key, r.names key = c.names key) ∧
        ∀ key n, (r.get? key n).map trim = (c.get? key n).map trim := by
  have hparts : (compute r c).isClean = true ↔
      (∀ key ∈ c.keys, key ∈ r.keys) ∧
        ∀ key d, r.scope? key = some d →
          r.names key = c.names key ∧ ∀ n, (r.get? key n).map trim = (c.get? key n).map trim := by
    unfold isClean
    rw [Bool.and_eq_true, List.isEmpty_iff, unmatched_eq, ScopeDiff.filter_absent_eq_nil, List.all_eq_true]
    refine and_congr_right fun _ => ?_
    constructor
    · intro h key d hd
      exact (ScopeDiff.isClean_iff hr hc hd).1 (h _ ((mem_scopes hr).2 ⟨key, d, hd, rfl⟩))
    · intro h s hs
      obtain ⟨key, d, hd, rfl⟩ := (mem_scopes hr).1 hs
      exact (ScopeDiff.isClean_iff hr hc hd).2 (h key d hd)
  rw [hparts]
  constructor
  · rintro ⟨hknown, hsame⟩
    have hkeys : r.keys = c.keys := by
      refine Dictionary.eq_of_mem_iff id hr.keys_pairwise hc.keys_pairwise fun key => ⟨fun h => ?_, hknown key⟩
      -- the scope has a name in the reference, so it has one in the present
      obtain ⟨d, hd⟩ := mem_keys.1 h
      exact hc.mem_keys_iff.2 ((hsame key d hd).1 ▸ hr.mem_keys_iff.1 h)
    have hnames (key : Text) : r.names key = c.names key := by
      by_cases h : key ∈ r.keys
      · obtain ⟨d, hd⟩ := mem_keys.1 h
        exact (hsame key d hd).1
      · rw [names_of_not_mem h, names_of_not_mem fun h' => h (hkeys ▸ h')]
    refine ⟨hkeys, hnames, fun key n => ?_⟩
    by_cases h : key ∈ r.keys
    · obtain ⟨d, hd⟩ := mem_keys.1 h
      exact (hsame key d hd).2 n
    · have hn : n ∉ r.names key := by simp [names_of_not_mem h]
      rw [get?_eq_none hn, get?_eq_none (hnames key ▸ hn)]
  · rintro ⟨hkeys, hnames, hvalues⟩
    exact ⟨fun key h => hkeys ▸ h, fun key d _ => ⟨hnames key, hvalues key⟩⟩

/-- **A scope that only the present has is absent in the other direction.** -/
theorem unmatched_eq_absent (r c : VariableMap) :
    (compute r c).unmatched = ((compute c r).scopes.filter (·.absent)).map (·.scope) := by
  rw [unmatched_eq]
  unfold compute
  rw [List.filter_map, List.map_map]
  simp only [Function.comp_def, ScopeDiff.compute_absent, ScopeDiff.compute_scope, isNone_scope?]
  exact List.filter_map

/-- **Comparisons are exact and dual.** There is one comparison for each scope of the reference, in ascending order. In it
the names of the reference are split into those missing and those preserved, which are counted; the names that only the
present has are extra; and the changes are those of the names on both sides whose trimmed values differ. All lists
ascend. In a scope that the present does not have, all names are missing and none preserved. Nothing differs if and only
if the maps have the same scopes, the same names in each and the same trimmed values. Comparing the other way round
exchanges missing and extra names and the sides of the changes in every scope of both maps, and the scopes that only the
present has are those that are absent then. -/
theorem compute_exact (hr : Built r) (hc : Built c) :
    let there := compute r c
    let back := compute c r
    (there.scopes.map (·.scope) = r.keys ∧ Ascending r.keys) ∧
    (∀ s ∈ there.scopes,
      let kept := (r.names s.scope).filter ((c.names s.scope).contains ·)
      (s.missing ++ kept).Perm (r.names s.scope) ∧ s.missing.Disjoint kept ∧
      s.preserved = kept.length ∧ s.preserved + s.missing.length = (r.names s.scope).length ∧
      (∀ n, n ∈ s.extra ↔ n ∈ c.names s.scope ∧ n ∉ r.names s.scope) ∧
      (∀ n old new, ⟨n, old, new⟩ ∈ s.changed ↔
        r.get? s.scope n = some old ∧ c.get? s.scope n = some new ∧ trim old ≠ trim new) ∧
      (Ascending s.missing ∧ Ascending s.extra ∧ Ascending (s.changed.map (·.name))) ∧
      (s.absent = true ↔ s.scope ∉ c.keys) ∧
      (s.absent = true → s.missing = r.names s.scope ∧ s.preserved = 0)) ∧
    (there.isClean = true ↔
      r.keys = c.keys ∧ (∀ key, r.names key = c.names key) ∧
        ∀ key n, (r.get? key n).map trim = (c.get? key n).map trim) ∧
    (∀ key, key ∈ r.keys → key ∈ c.keys → ∃ s t, there.scope? key = some s ∧ back.scope? key = some t ∧
      s.missing = t.extra ∧ s.extra = t.missing ∧ s.changed = t.changed.map ChangedVariable.swap) ∧
    there.unmatched = (back.scopes.filter (·.absent)).map (·.scope) := by
  intro there back
  have hr := wellFormed_of_built hr
  have hc := wellFormed_of_built hc
  refine ⟨⟨?_, ascending_of_pairwise hr.keys_pairwise⟩, ?_, isClean_iff hr hc, ?_, unmatched_eq_absent r c⟩
  · show (r.scopes.entries.map _).map _ = r.scopes.entries.map _
    rw [List.map_map]
    exact List.map_congr_left fun e _ => ScopeDiff.compute_scope _ _ _
  · intro s hs
    obtain ⟨key, d, hd, rfl⟩ := (mem_scopes hr).1 hs
    have habsent : (ScopeDiff.compute key d (c.scope? key)).absent = true ↔ key ∉ c.keys := by
      rw [ScopeDiff.compute_absent, isNone_scope?, Bool.not_eq_true', ← Bool.not_eq_true, List.contains_iff_mem]
    rw [ScopeDiff.compute_scope]
    obtain ⟨hperm, hdisjoint, hpreserved, hlength⟩ := ScopeDiff.compute_split c hd
    exact ⟨hperm, hdisjoint, hpreserved, hlength, fun n => ScopeDiff.mem_extra c hd,
      fun n old new => ScopeDiff.mem_changed c hd (hr.each hd).1, ScopeDiff.compute_ascending hr hc hd, habsent,
      fun h => ScopeDiff.compute_of_absent c hd (habsent.1 h)⟩
  · intro key hkey hkey'
    obtain ⟨d, hd⟩ := mem_keys.1 hkey
    obtain ⟨e, he⟩ := mem_keys.1 hkey'
    refine ⟨.compute key d (c.scope? key), .compute key e (r.scope? key), ?_, ?_, ScopeDiff.compute_swap hr hc hd he⟩
    · exact (scope?_compute r c key).trans (by rw [hd]; rfl)
    · exact (scope?_compute c r key).trans (by rw [he]; rfl)

/-- the global scope and a dark theme -/
def darkMap : VariableMap :=
  .ofRules {} (Stylesheet.parse {} ⟨0⟩ ":root\x7b--b: 2;--a:1;--c:3\x7d[data-theme=dark]\x7b--a:1\x7d".toList).rules

/-- the global scope and a light theme -/
def lightMap : VariableMap :=
  (VariableMap.ofRules {} (Stylesheet.parse {} ⟨0⟩ ":root\x7b--c:4;--d:5\x7d".toList).rules).insert
    "[data-theme=light]".toList "--a".toList "1".toList |>.insert ":root".toList "--b".toList " 2 ".toList

theorem compute_exact_themes :
    let there := compute darkMap lightMap
    let back := compute lightMap darkMap
    Built darkMap ∧ Built lightMap ∧
    there.scopes.map (·.scope) = [":root".toList, "[data-theme=\"dark\"]".toList] ∧
    there.scope? ":root".toList =
      some ⟨":root".toList, ["--a".toList], ["--d".toList], [⟨"--c".toList, "3".toList, "4".toList⟩], 2, false⟩ ∧
    (∃ s t, there.scope? ":root".toList = some s ∧ back.scope? ":root".toList = some t ∧
      s.missing = t.extra ∧ s.extra = t.missing ∧ s.changed = t.changed.map ChangedVariable.swap) ∧
    (∀ s ∈ there.scopes, s.absent = true → s.missing = darkMap.names s.scope ∧ s.preserved = 0) ∧
    there.isClean ≠ true ∧
    there.unmatched = (back.scopes.filter (·.absent)).map (·.scope) ∧
    there.unmatched = ["[data-theme=light]".toList] := by
  intro there back
  have hdark : Built darkMap := .addRules _ _ .empty
  have hlight : Built lightMap := .insert _ _ _ (.insert _ _ _ (.addRules _ _ .empty))
  obtain ⟨⟨hscopes, -⟩, heach, hclean, hdual, hunmatched⟩ := compute_exact hdark hlight
  refine ⟨hdark, hlight, hscopes.trans ?_, ?_, hdual _ ?_ ?_, ?_, ?_, hunmatched, ?_⟩
  · decide +kernel
  · decide +kernel
  · decide +kernel
  · decide +kernel
  · intro s hs
    obtain ⟨-, -, -, -, -, -, -, -, habsent⟩ := heach s hs
    exact habsent
  · intro h
    exact absurd (hclean.1 h).1 (by decide +kernel)
  · decide +kernel

end VariableDiff

end StyleCheck
