/-
Themes and scopes.

Two readers look at the theme attribute of a selector: one finds the theme of any selector that begins with it, the
other the key of a selector that is nothing else. Where the second finds a key, the first finds the theme of that key,
or none for the global scope. So the custom properties of a scope all come from one part of the theme split, and the
parts can be collected in any order.
- `scopeKey?_cases`, `scopeKey?_eq`: which selectors have a key, and that the two readers agree;
- `scope?_assign`, `assign_congr`: what a scope is set to depends on the assignments to that scope only;
- `flatMap_perm`: parts of which no two matter to a scope may be put in any order;
- `addRules_split`: collecting the parts of a split, in any order, is collecting the rules.
-/
import Mathlib.Data.List.Nodup
import StyleCheck.Proofs.Text.Classes
import StyleCheck.Proofs.Text.Cutting
import StyleCheck.Proofs.Theme.Partition
import StyleCheck.Proofs.Variable.Dictionary

namespace StyleCheck

open Text

/-! ## Keys and themes of selectors -/

namespace Selector

/-- the scope of a theme; where there is none, the global one -/
def scopeOf (attr : Text) : Option Text → Text
  | none => rootKey
  | some name => themeKey attr name

theorem scopeOf_injective {attr : Text} {theme theme' : Option Text} (h : scopeOf attr theme = scopeOf attr theme') :
    theme = theme' := by
  have hroot (name : Text) : rootKey ≠ themeKey attr name := fun he => absurd (List.cons.inj he).1 (by decide)
  cases theme <;> cases theme'
  · rfl
  · exact absurd h (hroot _)
  · exact absurd h.symm (hroot _)
  · simpa [scopeOf, themeKey] using h

/-- a value with a name in it holds no bracket -/
theorem not_mem_value {value : Text} (h : isName (unquote (trim value)) = true) : ']' ∉ value := by
  intro hm
  obtain ⟨lead, tail, hv, hl, ht⟩ := trim_decompose value
  rw [hv] at hm
  simp only [List.mem_append] at hm
  rcases hm with (hm | hm) | hm
  · exact absurd (hl _ hm) (by decide)
  · rcases mem_unquote hm with hm | hq
    · exact absurd ((isName_iff.1 h).2 _ hm) (by decide)
    · exact absurd hq (by decide)
  · exact absurd (ht _ hm) (by decide)

theorem trimStart_cons {c : Char} (hc : isBlank c = false) (t : Text) : trimStart (c :: t) = c :: t :=
  trimStart_eq_self_iff.2 (by simpa using hc)

/-- what follows a trimmed text is left in front of the next character that is no blank -/
theorem trimStart_trimmed (written : Text) {c : Char} (hc : isBlank c = false) (rest : Text) :
    ∃ gap, Blank gap ∧ trimStart (written ++ c :: rest) = trim written ++ (gap ++ c :: rest) := by
  obtain ⟨lead, tail, hw, hl, ht⟩ := trim_decompose written
  cases hcore : trim written with
  | nil =>
    rw [hcore, List.append_nil] at hw
    refine ⟨[], blank_nil, ?_⟩
    rw [hw, List.append_assoc, trimStart_append hl, trimStart_append ht, trimStart_cons hc]
    rfl
  | cons d core =>
    have hd : isBlank d = false := (tight_trim written).first d (by rw [hcore]; rfl)
    refine ⟨tail, ht, ?_⟩
    rw [hw, hcore, List.append_assoc, List.append_assoc, trimStart_append hl]
    simpa using trimStart_cons hd _

/-- **The theme of a selector that is nothing but an attribute**, whatever blanks stand around its parts. -/
theorem themeName?_of_exact {attr selector written value : Text}
    (h : trim selector = '[' :: (written ++ '=' :: value ++ [']'])) (hattr : trim written = attr)
    (hname : isName (unquote (trim value)) = true) : themeName? attr selector = some (unquote (trim value)) := by
  obtain ⟨lead, tail, hs, hl, -⟩ := trim_decompose selector
  have hstart : trimStart selector = '[' :: (written ++ '=' :: (value ++ ']' :: tail)) := by
    rw [hs, h, List.append_assoc, trimStart_append hl]
    simpa using trimStart_cons (by decide) _
  obtain ⟨gap, hg, hgap⟩ := trimStart_trimmed written (c := '=') (by decide) (value ++ ']' :: tail)
  have hfirst : dropFirst? '[' (trimStart selector) = some (written ++ '=' :: (value ++ ']' :: tail)) :=
    dropFirst?_eq_some_iff.2 hstart
  have hprefix : attr.isPrefixOf? (trimStart (written ++ '=' :: (value ++ ']' :: tail))) =
      some (gap ++ '=' :: (value ++ ']' :: tail)) := by
    rw [List.isPrefixOf?_eq_some_iff_append_eq, hgap, hattr]
  have hequals : dropFirst? '=' (trimStart (gap ++ '=' :: (value ++ ']' :: tail))) = some (value ++ ']' :: tail) := by
    rw [dropFirst?_eq_some_iff, trimStart_append hg, trimStart_cons (by decide)]
  have hcut : cut? ']' (value ++ ']' :: tail) = some (value, tail) := cut?_eq_some_iff.2 ⟨rfl, not_mem_value hname⟩
  have hvisible : (trim (unquote (trim value))).isEmpty = false := by
    rw [(isWord_of_isName hname).trim]
    simpa using (isWord_of_isName hname).nonempty
  unfold themeName?
  simp only [hfirst, hprefix, hequals, hcut, Option.bind_eq_bind, Option.bind_some, hvisible]
  rw [if_neg (by decide), (isWord_of_isName hname).trim]

/-- the global scope begins with no bracket -/
theorem themeName?_of_root (attr : Text) {selector : Text} (h : trim selector = rootKey) :
    themeName? attr selector = none := by
  obtain ⟨lead, tail, hs, hl, -⟩ := trim_decompose selector
  have hstart : trimStart selector = ':' :: ("root".toList ++ tail) := by
    rw [hs, h, List.append_assoc, trimStart_append hl]
    rfl
  unfold themeName?
  rw [hstart]
  rfl

/-- **A selector with a key** is the global scope, or an attribute whose value is a name. -/
theorem scopeKey?_cases {attr selector key : Text} (h : scopeKey? attr selector = some key) :
    (trim selector = rootKey ∧ key = rootKey) ∨
      ∃ written value, trim selector = '[' :: (written ++ '=' :: value ++ [']']) ∧ '=' ∉ written ∧
        trim written = attr ∧ isName (unquote (trim value)) = true ∧ key = themeKey attr (unquote (trim value)) := by
  unfold scopeKey? at h
  simp only at h
  split at h
  · rename_i hroot
    exact Or.inl ⟨hroot, (Option.some.inj h).symm⟩
  · obtain ⟨t, hfirst, h⟩ := Option.bind_eq_some_iff.1 h
    obtain ⟨inner, hlast, h⟩ := Option.bind_eq_some_iff.1 h
    obtain ⟨⟨written, value⟩, hcut, h⟩ := Option.bind_eq_some_iff.1 h
    simp only at h
    split at h
    · rename_i hvalid
      obtain ⟨c, hc, ht⟩ := of_dropLast? hlast
      obtain ⟨hinner, hequals⟩ := cut?_eq_some_iff.1 hcut
      have hexact : trim selector = '[' :: (written ++ '=' :: value ++ [']']) := by
        rw [dropFirst?_eq_some_iff.1 hfirst, ht, hinner, eq_of_beq hc]
      exact Or.inr ⟨written, value, hexact, hequals, hvalid.1, hvalid.2, (Option.some.inj h).symm⟩
    · cases h

/-- **The key of a selector is that of its theme.** -/
theorem scopeKey?_eq {attr selector key : Text} (h : scopeKey? attr selector = some key) :
    key = scopeOf attr (themeName? attr selector) := by
  rcases scopeKey?_cases h with ⟨hroot, rfl⟩ | ⟨written, value, hexact, -, hattr, hname, rfl⟩
  · rw [themeName?_of_root attr hroot]
    rfl
  · rw [themeName?_of_exact hexact hattr hname]
    rfl

end Selector

/-! ## What a scope is set to -/

namespace VariableMap

/-- assignments of values to properties of scopes, one after the other -/
def assign (m : VariableMap) (as : List (Text × Text × Text)) : VariableMap :=
  as.foldl (fun m (scope, name, value) => m.insert scope name value) m

/-- the properties of a scope after one more assignment to it -/
def put (d : Option (Dictionary Text)) (a : Text × Text × Text) : Option (Dictionary Text) :=
  some ((d.getD .empty).insert a.2.1 a.2.2)

theorem addRules_eq (config : ScopeConfig) (m : VariableMap) (rules : List Rule) :
    addRules config m rules = assign m (rules.flatMap (assignments config)) := rfl

theorem addRules_append (config : ScopeConfig) (m : VariableMap) (a b : List Rule) :
    addRules config m (a ++ b) = addRules config (addRules config m a) b := by
  rw [addRules_eq, addRules_eq, addRules_eq, List.flatMap_append]
  exact List.foldl_append

/-- lists of rules, collected one after the other -/
theorem foldl_addRules (config : ScopeConfig) (m : VariableMap) (parts : List (List Rule)) :
    parts.foldl (addRules config) m = addRules config m parts.flatten := by
  induction parts generalizing m with
  | nil => rfl
  | cons p parts ih => rw [List.foldl_cons, ih, List.flatten_cons, addRules_append]

section
variable {m : VariableMap}

theorem sorted_assign (h : m.scopes.Sorted) (as : List (Text × Text × Text)) : (assign m as).scopes.Sorted := by
  induction as generalizing m with
  | nil => exact h
  | cons a as ih => exact ih (Dictionary.sorted_alter a.1 _ h)

/-- a scope that nothing is assigned to stays as it is -/
theorem scope?_assign_of_forall_ne {as : List (Text × Text × Text)} {key : Text} (h : ∀ a ∈ as, a.1 ≠ key) :
    (assign m as).scope? key = m.scope? key := by
  induction as generalizing m with
  | nil => rfl
  | cons a as ih =>
    obtain ⟨ha, has⟩ := List.forall_mem_cons.1 h
    exact (ih has).trans (Dictionary.get?_alter_of_ne a.1 _ m.scopes ha)

/-- **A scope is set by the assignments to it**, in their order. -/
theorem scope?_assign (h : m.scopes.Sorted) (as : List (Text × Text × Text)) (key : Text) :
    (assign m as).scope? key = (as.filter fun a => a.1 = key).foldl put (m.scope? key) := by
  induction as generalizing m with
  | nil => rfl
  | cons a as ih =>
    have hstep := ih (m := m.insert a.1 a.2.1 a.2.2) (Dictionary.sorted_alter a.1 _ h)
    refine hstep.trans ?_
    by_cases ha : a.1 = key
    · have hself : (m.insert a.1 a.2.1 a.2.2).scope? key = put (m.scope? key) a := by
        rw [← ha]
        exact Dictionary.get?_alter_self a.1 _ h
      rw [hself]
      simp [ha]
    · have hother : (m.insert a.1 a.2.1 a.2.2).scope? key = m.scope? key :=
        Dictionary.get?_alter_of_ne a.1 _ m.scopes ha
      rw [hother]
      simp [ha]

/-- **Assignments that are the same for each scope come to the same map.** -/
theorem assign_congr (h : m.scopes.Sorted) {as bs : List (Text × Text × Text)}
    (hsame : ∀ key, (as.filter fun a => a.1 = key) = bs.filter fun a => a.1 = key) : assign m as = assign m bs := by
  have hscopes : (assign m as).scopes = (assign m bs).scopes := by
    refine (sorted_assign h as).ext (sorted_assign h bs) fun key => ?_
    calc (assign m as).scope? key
      _ = (as.filter fun a => a.1 = key).foldl put (m.scope? key) := scope?_assign h as key
      _ = (bs.filter fun a => a.1 = key).foldl put (m.scope? key) := by rw [hsame]
      _ = (assign m bs).scope? key := (scope?_assign h bs key).symm
  exact congrArg VariableMap.mk hscopes

end

/-! ## The assignments of rules to one scope -/

section
open Stylesheet (numbered map_numbered)
open ThemeSplit (members appearing mem_appearing)

variable (config : ScopeConfig)

/-- the assignments of rules to one scope -/
def assignmentsTo (key : Text) (rules : List Rule) : List (Text × Text × Text) :=
  (rules.flatMap (assignments config)).filter fun a => a.1 = key

theorem assignmentsTo_append (key : Text) (a b : List Rule) :
    assignmentsTo config key (a ++ b) = assignmentsTo config key a ++ assignmentsTo config key b := by
  unfold assignmentsTo
  rw [List.flatMap_append, List.filter_append]

theorem assignmentsTo_flatten (key : Text) (parts : List (List Rule)) :
    assignmentsTo config key parts.flatten = parts.flatMap (assignmentsTo config key) := by
  induction parts with
  | nil => rfl
  | cons p parts ih => rw [List.flatten_cons, assignmentsTo_append, ih, List.flatMap_cons]

/-- positions do not matter -/
theorem assignmentsTo_numbered (key : Text) (n : Nat) (rules : List Rule) :
    assignmentsTo config key (numbered n rules) = assignmentsTo config key rules := by
  unfold assignmentsTo
  rw [List.flatMap_def, List.flatMap_def, map_numbered _ fun _ _ => rfl]

theorem mem_assignmentsTo {key : Text} {rules : List Rule} {a : Text × Text × Text}
    (h : a ∈ assignmentsTo config key rules) :
    a.1 = key ∧ ∃ r ∈ rules, key = Selector.scopeOf config.themeAttribute
      (Selector.themeName? config.themeAttribute r.selector) := by
  obtain ⟨hmem, hkey⟩ := List.mem_filter.1 h
  obtain ⟨r, hr, ha⟩ := List.mem_flatMap.1 hmem
  have hscope : a.1 = key := by simpa using hkey
  unfold assignments at ha
  split at ha
  · cases ha
  · rename_i k hk
    obtain ⟨d, -, rfl⟩ := List.mem_map.1 ha
    exact ⟨hscope, r, hr, hscope ▸ Selector.scopeKey?_eq hk⟩

/-- the rules of another theme assign nothing -/
theorem assignmentsTo_members_of_ne {key : Text} (rules : List Rule) {theme : Option Text}
    (h : key ≠ Selector.scopeOf config.themeAttribute theme) :
    assignmentsTo config key (members config.themeAttribute rules theme) = [] := by
  rw [List.eq_nil_iff_forall_not_mem]
  intro a ha
  obtain ⟨-, r, hr, hkey⟩ := mem_assignmentsTo config ha
  have htheme : Selector.themeName? config.themeAttribute r.selector = theme := by
    simpa using (List.mem_filter.1 hr).2
  exact h (htheme ▸ hkey)

/-- **All assignments to a scope are in the rules of its theme.** -/
theorem assignmentsTo_members (rules : List Rule) (theme : Option Text) :
    assignmentsTo config (Selector.scopeOf config.themeAttribute theme) (members config.themeAttribute rules theme) =
      assignmentsTo config (Selector.scopeOf config.themeAttribute theme) rules := by
  induction rules with
  | nil => rfl
  | cons r rules ih =>
    have hcons : r :: rules = [r] ++ rules := rfl
    by_cases hr : Selector.themeName? config.themeAttribute r.selector = theme
    · have hm : members config.themeAttribute (r :: rules) theme =
          [r] ++ members config.themeAttribute rules theme := by simp [members, hr]
      rw [hm, hcons, assignmentsTo_append, assignmentsTo_append, ih]
    · have hm : members config.themeAttribute (r :: rules) theme = members config.themeAttribute rules theme := by
        simp [members, hr]
      have hnone : assignmentsTo config (Selector.scopeOf config.themeAttribute theme) [r] = [] := by
        rw [List.eq_nil_iff_forall_not_mem]
        intro a ha
        obtain ⟨-, r', hr', hkey⟩ := mem_assignmentsTo config ha
        rw [List.mem_singleton.1 hr'] at hkey
        exact hr (Selector.scopeOf_injective hkey).symm
      rw [hm, hcons, assignmentsTo_append, hnone, ih]
      rfl

/-- the themes of a split, and the lack of one for the base -/
def partThemes (rules : List Rule) : List (Option Text) := none :: (appearing config.themeAttribute rules).map some

theorem nodup_partThemes (rules : List Rule) : (partThemes config rules).Nodup := by
  refine List.nodup_cons.2 ⟨by simp, ?_⟩
  exact (Distinct.nodup_eraseDups _).map fun _ _ => Option.some.inj

theorem parts_eq (rules : List Rule) :
    let split := ThemeSplit.ofRules config.themeAttribute rules
    split.base :: split.themes.map (·.rules) =
      (partThemes config rules).map fun theme => numbered 0 (members config.themeAttribute rules theme) := by
  intro split
  simp only [split, ThemeSplit.ofRules_eq, ThemeSplit.closed, ThemeSplit.groups, partThemes, List.map_cons,
    List.map_map, Function.comp_def]

/-- at most one part of a split matters to a scope -/
theorem pairwise_parts (rules : List Rule) (key : Text) :
    ((partThemes config rules).map fun theme => numbered 0 (members config.themeAttribute rules theme)).Pairwise
      fun p p' => assignmentsTo config key p = [] ∨ assignmentsTo config key p' = [] := by
  refine List.pairwise_map.2 ((nodup_partThemes config rules).imp fun {theme theme'} hne => ?_)
  rw [assignmentsTo_numbered, assignmentsTo_numbered]
  by_cases hkey : key = Selector.scopeOf config.themeAttribute theme
  · exact Or.inr (assignmentsTo_members_of_ne config rules fun h => hne (Selector.scopeOf_injective (hkey ▸ h)))
  · exact Or.inl (assignmentsTo_members_of_ne config rules hkey)

/-- **The parts of a split assign to a scope what the rules do.** -/
theorem assignmentsTo_parts (rules : List Rule) (key : Text) :
    ((partThemes config rules).map fun theme => numbered 0 (members config.themeAttribute rules theme)).flatMap
      (assignmentsTo config key) = assignmentsTo config key rules := by
  rw [List.flatMap_map]
  simp only [assignmentsTo_numbered]
  by_cases hkey : ∃ theme ∈ partThemes config rules, key = Selector.scopeOf config.themeAttribute theme
  · obtain ⟨theme, htheme, rfl⟩ := hkey
    obtain ⟨before, after, hparts⟩ := List.append_of_mem htheme
    have hnodup := nodup_partThemes config rules
    rw [hparts] at hnodup ⊢
    have hother : ∀ theme' ∈ before ++ after, assignmentsTo config (Selector.scopeOf config.themeAttribute theme)
        (members config.themeAttribute rules theme') = [] := by
      intro theme' hmem
      refine assignmentsTo_members_of_ne config rules fun h => ?_
      rw [List.nodup_middle, List.nodup_cons] at hnodup
      exact hnodup.1 (Selector.scopeOf_injective h ▸ hmem)
    have hbefore := List.flatMap_eq_nil_iff.2 fun t ht => hother t (List.mem_append_left _ ht)
    have hafter := List.flatMap_eq_nil_iff.2 fun t ht => hother t (List.mem_append_right _ ht)
    rw [List.flatMap_append, List.flatMap_cons, hbefore, hafter, assignmentsTo_members, List.nil_append,
      List.append_nil]
  · have hnone : assignmentsTo config key rules = [] := by
      rw [List.eq_nil_iff_forall_not_mem]
      intro a ha
      obtain ⟨-, r, hr, hscope⟩ := mem_assignmentsTo config ha
      refine hkey ⟨_, ?_, hscope⟩
      cases ht : Selector.themeName? config.themeAttribute r.selector with
      | none => exact List.mem_cons_self
      | some n => exact List.mem_cons_of_mem _ (List.mem_map_of_mem ((mem_appearing _).2 ⟨r, hr, ht⟩))
    rw [hnone, List.flatMap_eq_nil_iff]
    exact fun theme htheme => assignmentsTo_members_of_ne config rules fun h => hkey ⟨theme, htheme, h⟩

/-- lists of which no two matter may be put in any order -/
theorem flatMap_perm {α β : Type} {f : α → List β} {l l' : List α} (hp : l.Perm l')
    (h : l.Pairwise fun a b => f a = [] ∨ f b = []) : l.flatMap f = l'.flatMap f := by
  induction hp with
  | nil => rfl
  | cons a _ ih => rw [List.flatMap_cons, List.flatMap_cons, ih (List.pairwise_cons.1 h).2]
  | swap a b l =>
    have hab := (List.pairwise_cons.1 h).1 a List.mem_cons_self
    rcases hab with hb | ha
    · simp [hb]
    · simp [ha]
  | trans hp _ ih ih' => exact (ih h).trans (ih' ((hp.pairwise_iff fun h => h.symm).1 h))

/-- a part of a split changes the scope of its theme only -/
theorem scope?_addRules_members (m : VariableMap) (rules : List Rule) (theme : Option Text) {key : Text}
    (h : key ≠ Selector.scopeOf config.themeAttribute theme) :
    (addRules config m (numbered 0 (members config.themeAttribute rules theme))).scope? key = m.scope? key := by
  rw [addRules_eq]
  refine scope?_assign_of_forall_ne fun a ha hkey => ?_
  have hnone := (assignmentsTo_numbered config key 0 _).trans (assignmentsTo_members_of_ne config rules h)
  exact List.eq_nil_iff_forall_not_mem.1 hnone a (List.mem_filter.2 ⟨ha, by simpa using hkey⟩)

end

/-- **Splitting by themes and collecting custom properties commute.** Collected one after the other, in any order, the
base and the groups of a theme split come to the map of all the rules. A group changes no scope but that of its theme,
and the base none but the global one, whatever map they are added to. -/
theorem addRules_split (config : ScopeConfig) (rules : List Rule) :
    let split := ThemeSplit.ofRules config.themeAttribute rules
    (∀ parts : List (List Rule), parts.Perm (split.base :: split.themes.map (·.rules)) →
      parts.foldl (addRules config) empty = ofRules config rules) ∧
    (∀ g ∈ split.themes, ∀ (m : VariableMap) (key : Text), key ≠ Selector.themeKey config.themeAttribute g.name →
      (addRules config m g.rules).scope? key = m.scope? key) ∧
    ∀ (m : VariableMap) (key : Text), key ≠ Selector.rootKey →
      (addRules config m split.base).scope? key = m.scope? key := by
  intro split
  have hsplit : split = ThemeSplit.closed config.themeAttribute rules := ThemeSplit.ofRules_eq _ rules
  refine ⟨fun parts hparts => ?_, fun g hg m key hkey => ?_, fun m key hkey => ?_⟩
  · rw [foldl_addRules, ofRules, addRules_eq, addRules_eq]
    refine assign_congr Dictionary.sorted_empty fun key => ?_
    have hperm := hparts.symm
    rw [parts_eq] at hperm
    calc assignmentsTo config key parts.flatten
      _ = parts.flatMap (assignmentsTo config key) := assignmentsTo_flatten config key parts
      _ = _ := (flatMap_perm hperm (pairwise_parts config rules key)).symm
      _ = assignmentsTo config key rules := assignmentsTo_parts config rules key
  · rw [hsplit] at hg
    obtain ⟨n, -, rfl⟩ := List.mem_map.1 hg
    exact scope?_addRules_members config m rules (some n) hkey
  · rw [hsplit]
    exact scope?_addRules_members config m rules none hkey

/-- a theme in two spellings with a later value, around another one behind blanks, both between base rules -/
def interleavedRules : List Rule :=
  (Stylesheet.parse {} ⟨0⟩ (":root\x7b--a:1\x7d[data-theme=x]\x7b--a:2\x7d[ data-theme = 'y' ]\x7b--a:3\x7d" ++
    "[data-theme=\"x\"]\x7b--a:4\x7d:root\x7b--a:5\x7d").toList).rules

def firstGroup : ThemeGroup :=
  ⟨['x'], Stylesheet.numbered 0 (ThemeSplit.members "data-theme".toList interleavedRules (some ['x']))⟩

theorem addRules_split_interleaved :
    let split := ThemeSplit.ofRules ({} : ScopeConfig).themeAttribute interleavedRules
    let parts := (split.themes.map (·.rules)).reverse ++ [split.base]
    let whole := ofRules {} interleavedRules
    parts.Perm (split.base :: split.themes.map (·.rules)) ∧ parts.map List.length = [1, 2, 2] ∧
    whole.get? "[data-theme=\"x\"]".toList "--a".toList = some ['4'] ∧
    parts.foldl (addRules {}) empty = whole ∧
    firstGroup ∈ split.themes ∧
    (addRules {} whole firstGroup.rules).scope? Selector.rootKey = whole.scope? Selector.rootKey ∧
    (addRules {} whole split.base).scope? (Selector.themeKey "data-theme".toList ['x']) =
      whole.scope? (Selector.themeKey "data-theme".toList ['x']) := by
  intro split parts whole
  have hreversed (l : List (List Rule)) (p : List Rule) : (l.reverse ++ [p]).Perm (p :: l) :=
    List.perm_append_comm.trans ((List.reverse_perm l).cons p)
  have hparts : parts.Perm (split.base :: split.themes.map (·.rules)) := hreversed _ _
  have hvalues : parts.map List.length = [1, 2, 2] ∧
      whole.get? "[data-theme=\"x\"]".toList "--a".toList = some ['4'] ∧ firstGroup ∈ split.themes := by
    decide +kernel
  obtain ⟨hlengths, hvalue, hfirst⟩ := hvalues
  have hroot : Selector.rootKey ≠ Selector.themeKey ({} : ScopeConfig).themeAttribute ['x'] := by decide
  have htheme : Selector.themeKey "data-theme".toList ['x'] ≠ Selector.rootKey := by decide
  have h := addRules_split {} interleavedRules
  refine ⟨hparts, hlengths, hvalue, h.1 parts hparts, hfirst, ?_, ?_⟩
  · exact h.2.1 firstGroup hfirst whole Selector.rootKey hroot
  · exact h.2.2 whole (Selector.themeKey "data-theme".toList ['x']) htheme

end VariableMap

end StyleCheck
