/-
The partition into themes, said in terms of the rules.

Groups are opened and grow while the rules are read. `closed` says at once what they come to: the base is the list of
rules without a theme, and for each theme, in order of first appearance, there is one group with the list of its rules;
every list is in document order and numbered from 0.
- `addTo_groups`: what one more rule does to groups with different names;
- `closed_concat`, `ofRules_eq`: one more rule keeps the closed form, so a partition has it;
- `ofRules_partition`: a partition loses nothing and keeps every order.
-/
import StyleCheck.ThemeSplit
import StyleCheck.Proofs.Distinct
import StyleCheck.Proofs.Parse.Rules

namespace StyleCheck.ThemeSplit

open Distinct Selector Stylesheet

/-- the rules of a theme, or those without one -/
def members (attr : Text) (rules : List Rule) (theme : Option Text) : List Rule :=
  rules.filter fun r => themeName? attr r.selector = theme

/-- the themes of rules, in order of first appearance -/
def appearing (attr : Text) (rules : List Rule) : List Text :=
  (rules.filterMap fun r => themeName? attr r.selector).eraseDups

/-- one group for each of `names` -/
def groups (names : List Text) (f : Text → List Rule) : List ThemeGroup := names.map fun n => ⟨n, f n⟩

/-- what the partition of `rules` comes to -/
def closed (attr : Text) (rules : List Rule) : ThemeSplit where
  base := numbered 0 (members attr rules none)
  themes := groups (appearing attr rules) fun n => numbered 0 (members attr rules (some n))

variable (attr : Text)

theorem members_concat (rules : List Rule) (r : Rule) (theme : Option Text) :
    members attr (rules ++ [r]) theme =
      members attr rules theme ++ if themeName? attr r.selector = theme then [r] else [] := by
  unfold members
  by_cases h : themeName? attr r.selector = theme <;> simp [h]

theorem numbered_concat (rules : List Rule) (r : Rule) : numbered 0 (rules ++ [r]) = append (numbered 0 rules) r := by
  unfold numbered append
  rw [List.mapIdx_concat, List.length_mapIdx, Nat.zero_add]

theorem mem_appearing {rules : List Rule} {n : Text} :
    n ∈ appearing attr rules ↔ ∃ r ∈ rules, themeName? attr r.selector = some n := by
  unfold appearing
  rw [List.mem_eraseDups, List.mem_filterMap]

/-! ## One more rule -/

section
variable {names : List Text} {f f' : Text → List Rule} {n : Text}

theorem groups_congr (h : ∀ m ∈ names, f m = f' m) : groups names f = groups names f' := by
  refine List.map_congr_left fun m hm => ?_
  rw [h m hm]

theorem groups_concat (names : List Text) (f : Text → List Rule) (n : Text) :
    groups (names ++ [n]) f = groups names f ++ [⟨n, f n⟩] := by
  unfold groups
  rw [List.map_append, List.map_singleton]

/-- a rule opens a group where there is none -/
theorem addTo_groups_of_not_mem (f : Text → List Rule) (r : Rule) (h : n ∉ names) :
    addTo n r (groups names f) = groups names f ++ [⟨n, append [] r⟩] := by
  induction names with
  | nil => rfl
  | cons m names ih =>
    have hm : m ≠ n := fun he => h (he ▸ List.mem_cons_self)
    have hstep : addTo n r (groups (m :: names) f) = ⟨m, f m⟩ :: addTo n r (groups names f) := if_neg hm
    rw [hstep, ih fun hn => h (List.mem_cons_of_mem _ hn)]
    rfl

/-- **A rule goes to the group of its name**, which is the only one. -/
theorem addTo_groups (f : Text → List Rule) (r : Rule) (hd : names.Nodup) (h : n ∈ names) :
    addTo n r (groups names f) = groups names fun m => if m = n then append (f m) r else f m := by
  induction names with
  | nil => cases h
  | cons m names ih =>
    obtain ⟨hm, hd⟩ := List.nodup_cons.1 hd
    by_cases he : m = n
    · have hstep : addTo n r (groups (m :: names) f) = ⟨m, append (f m) r⟩ :: groups names f := if_pos he
      have hrest : groups names f = groups names fun m => if m = n then append (f m) r else f m := by
        refine groups_congr fun m' hm' => ?_
        have hne : m' ≠ n := fun he' => hm (he.trans he'.symm ▸ hm')
        exact (if_neg hne).symm
      rw [hstep, hrest]
      simp [groups, he]
    · have hstep : addTo n r (groups (m :: names) f) = ⟨m, f m⟩ :: addTo n r (groups names f) := if_neg he
      rw [hstep, ih hd (List.mem_of_ne_of_mem (Ne.symm he) h)]
      simp [groups, he]

end

section
variable {rules : List Rule} {r : Rule}

theorem appearing_concat_none (h : themeName? attr r.selector = none) :
    appearing attr (rules ++ [r]) = appearing attr rules := by
  simp [appearing, h]

theorem appearing_concat_some {n : Text} (h : themeName? attr r.selector = some n) :
    appearing attr (rules ++ [r]) =
      if n ∈ appearing attr rules then appearing attr rules else appearing attr rules ++ [n] := by
  have hconcat : (rules ++ [r]).filterMap (fun r => themeName? attr r.selector) =
      rules.filterMap (fun r => themeName? attr r.selector) ++ [n] := by simp [h]
  simp only [appearing, hconcat, eraseDups_concat, List.mem_eraseDups]

/-- the rules of a theme are numbered anew, so the next one takes the next number -/
theorem numbered_members_concat (rules : List Rule) (r : Rule) (theme : Option Text) :
    numbered 0 (members attr (rules ++ [r]) theme) =
      if themeName? attr r.selector = theme then append (numbered 0 (members attr rules theme)) r
      else numbered 0 (members attr rules theme) := by
  rw [members_concat]
  split
  · rw [numbered_concat]
  · rw [List.append_nil]

/-- **One more rule of a theme** goes to the group of that theme, or opens it. -/
theorem themes_concat {n : Text} (h : themeName? attr r.selector = some n) :
    addTo n r (closed attr rules).themes = (closed attr (rules ++ [r])).themes := by
  have hgroup (m : Text) : numbered 0 (members attr (rules ++ [r]) (some m)) =
      if m = n then append (numbered 0 (members attr rules (some m))) r
      else numbered 0 (members attr rules (some m)) := by
    simp only [numbered_members_concat, h, Option.some.injEq, eq_comm (a := n)]
  simp only [closed, appearing_concat_some attr h, hgroup]
  by_cases hn : n ∈ appearing attr rules
  · have hd : (appearing attr rules).Nodup := nodup_eraseDups _
    rw [if_pos hn, addTo_groups _ r hd hn]
  · -- the theme had no rules, and all other groups stay as they are
    have hempty : members attr rules (some n) = [] := by
      refine List.filter_eq_nil_iff.2 fun r' hr' he => hn ((mem_appearing attr).2 ⟨r', hr', ?_⟩)
      simpa using he
    rw [if_neg hn, addTo_groups_of_not_mem _ r hn, groups_concat, if_pos rfl, hempty]
    refine congrArg (· ++ _) (groups_congr fun m hm => ?_)
    have hne : m ≠ n := fun he => hn (he ▸ hm)
    exact (if_neg hne).symm

/-- **One more rule keeps the closed form.** -/
theorem closed_concat (rules : List Rule) (r : Rule) : add attr (closed attr rules) r = closed attr (rules ++ [r]) := by
  unfold add
  cases ht : themeName? attr r.selector with
  | none =>
    have hbase : append (closed attr rules).base r = (closed attr (rules ++ [r])).base := by
      simp only [closed, numbered_members_concat, ht, if_true]
    have hthemes : (closed attr rules).themes = (closed attr (rules ++ [r])).themes := by
      simp [closed, appearing_concat_none attr ht, numbered_members_concat, ht]
    simp only [hbase, hthemes]
  | some n =>
    have hbase : (closed attr rules).base = (closed attr (rules ++ [r])).base := by
      simp [closed, numbered_members_concat, ht]
    simp only [hbase, themes_concat attr ht]

end

theorem ofRules_eq (rules : List Rule) : ofRules attr rules = closed attr rules := by
  unfold ofRules
  induction rules using List.reverseRecOn with
  | nil => rfl
  | append_singleton rules r ih => rw [List.foldl_append, List.foldl_cons, List.foldl_nil, ih, closed_concat]

/-! ## Nothing is lost -/

theorem length_addTo (n : Text) (r : Rule) (gs : List ThemeGroup) :
    ((addTo n r gs).flatMap (·.rules)).length = (gs.flatMap (·.rules)).length + 1 := by
  induction gs with
  | nil => simp [addTo, append]
  | cons g gs ih =>
    unfold addTo
    split
    · simp [append]
      omega
    · simp only [List.flatMap_cons, List.length_append, ih]
      omega

theorem ruleCount_add (s : ThemeSplit) (r : Rule) : (add attr s r).ruleCount = s.ruleCount + 1 := by
  unfold add
  split
  · simp only [ruleCount, append, List.length_append, List.length_singleton]
    omega
  · simp only [ruleCount, length_addTo]
    omega

theorem ruleCount_ofRules (rules : List Rule) : (ofRules attr rules).ruleCount = rules.length := by
  unfold ofRules
  induction rules using List.reverseRecOn with
  | nil => rfl
  | append_singleton rules r ih =>
    rw [List.foldl_append, List.foldl_cons, List.foldl_nil, ruleCount_add, ih, List.length_append, List.length_singleton]

/-- a theme that appears has a rule -/
theorem members_ne_nil {rules : List Rule} {n : Text} (h : n ∈ appearing attr rules) :
    members attr rules (some n) ≠ [] := by
  obtain ⟨r, hr, hn⟩ := (mem_appearing attr).1 h
  exact List.ne_nil_of_mem (List.mem_filter.2 ⟨hr, by simpa using hn⟩)

/-- **The theme split is a stable partition that loses nothing.** Themes are listed once each, in order of first
appearance. The base is the list of the rules without a theme and each group, none of them empty, the list of the rules
of its theme, in document order and unchanged but for their positions, which are 0, 1, 2 and so on in each list. -/
theorem ofRules_partition (rules : List Rule) :
    let split := ofRules attr rules
    split.names.Nodup ∧
    split.names = (rules.filterMap fun r => themeName? attr r.selector).eraseDups ∧
    split.base = numbered 0 (rules.filter fun r => themeName? attr r.selector = none) ∧
    (∀ g ∈ split.themes,
      g.rules = numbered 0 (rules.filter fun r => themeName? attr r.selector = some g.name) ∧ g.rules ≠ []) ∧
    split.ruleCount = rules.length := by
  intro split
  have hsplit : split = closed attr rules := ofRules_eq attr rules
  have hnames : split.names = appearing attr rules := by
    rw [hsplit]
    simp [names, closed, groups, Function.comp_def]
  refine ⟨?_, hnames, by rw [hsplit]; rfl, ?_, ruleCount_ofRules attr rules⟩
  · rw [hnames]
    exact nodup_eraseDups _
  · intro g hg
    rw [hsplit] at hg
    obtain ⟨n, hn, rfl⟩ := List.mem_map.1 hg
    refine ⟨rfl, fun he => members_ne_nil attr hn ?_⟩
    simpa [numbered] using he

end StyleCheck.ThemeSplit
