/-
Keys of scopes.

A selector is that of a theme and of nothing else if it is the attribute with a name, in brackets: blanks may stand
around every part, and the name may be in quotes of either kind (`Exact`). The key of a theme is one such way to write
it, so it has itself as its key, and the name can be read off it again.
- `scopeKey?_eq_some_iff`: the selectors with a key are the global scope and the exact ones;
- `exact_themeKey`: a key is an exact selector;
- `keyTheme?_themeKey`: the name in a key is read back, for no accepted attribute holds an equals sign;
- `map_themeNames`: the themes of a map are the names in its keys, in their order;
- `scope_keys_canonical`: keys are canonical, two exact selectors have one key if their names are equal, and no theme has
  the key of the global scope.
-/
import StyleCheck.Proofs.Animation.Value
import StyleCheck.Proofs.Theme.Scopes
import StyleCheck.Proofs.Variable.Comparison

namespace StyleCheck

open Animation (Spelled)
open Text

namespace Selector

/-! ## Selectors of themes -/

/-- the blanks between the parts of a theme as it is written -/
structure Gaps where
  before : Text
  /-- around the attribute -/
  attrLead : Text
  attrTail : Text
  /-- around the value -/
  valueLead : Text
  valueTail : Text
  after : Text
  deriving DecidableEq, Repr

namespace Gaps

/-- an attribute with a value, in brackets -/
def text (g : Gaps) (attr value : Text) : Text :=
  let inside := g.attrLead ++ attr ++ g.attrTail ++ '=' :: (g.valueLead ++ value ++ g.valueTail)
  g.before ++ ('[' :: (inside ++ [']'])) ++ g.after

structure WellFormed (g : Gaps) : Prop where
  outside : Blank g.before ∧ Blank g.after
  attr : Blank g.attrLead ∧ Blank g.attrTail
  value : Blank g.valueLead ∧ Blank g.valueTail

instance (g : Gaps) : Decidable g.WellFormed :=
  decidable_of_iff ((Blank g.before ∧ Blank g.after) ∧ (Blank g.attrLead ∧ Blank g.attrTail) ∧
      Blank g.valueLead ∧ Blank g.valueTail)
    ⟨fun ⟨outside, attr, value⟩ => ⟨outside, attr, value⟩, fun h => ⟨h.outside, h.attr, h.value⟩⟩

end Gaps

/-- `selector` is the theme `name`, bare or in quotes, and nothing else -/
structure Exact (attr selector name : Text) : Prop where
  tight : Tight attr
  undivided : '=' ∉ attr
  named : isName name = true
  written : ∃ (g : Gaps) (value : Text), g.WellFormed ∧ Spelled name value ∧ selector = g.text attr value

section
variable {attr selector name key : Text}

/-- blanks around a text do not matter -/
theorem trim_surrounded {lead tail : Text} (hlead : Blank lead) (htail : Blank tail) (t : Text) :
    trim (lead ++ t ++ tail) = trim t := by
  rw [append_trim _ htail, trim_append hlead]

theorem not_mem_of_blank {c : Char} (hc : isBlank c = false) {t : Text} (h : Blank t) : c ∉ t := by
  intro hm
  exact ne_of_class (h c hm) hc rfl

/-- no quote is taken off a name, and both of a name in quotes are -/
theorem unquote_spelled {value : Text} (hname : isName name = true) (h : Spelled name value) :
    unquote value = name := by
  cases h with
  | unquoted =>
    rcases unquote_eq_or name with he | ⟨q, hq, he⟩
    · exact he
    · have hchar : isNameChar q = true := by
        refine (isName_iff.1 hname).2 q ?_
        rw [he]
        exact List.mem_cons_self
      rcases isQuote_iff.1 hq with rfl | rfl <;> cases hchar
  | literal hq => exact unquote_between hq name

/-- a selector that is nothing but an attribute whose value is a name -/
theorem scopeKey?_of_brackets {written value : Text} (h : trim selector = '[' :: (written ++ '=' :: value ++ [']']))
    (hequals : '=' ∉ written) (hattr : trim written = attr) (hname : isName (unquote (trim value)) = true) :
    scopeKey? attr selector = some (themeKey attr (unquote (trim value))) := by
  have hroot : trim selector ≠ rootKey := by
    rw [h]
    exact fun he => absurd (List.cons.inj he).1 (by decide)
  have hfirst : dropFirst? '[' (trim selector) = some (written ++ '=' :: value ++ [']']) := dropFirst?_eq_some_iff.2 h
  have hlast : dropLast? (· == ']') (written ++ '=' :: value ++ [']']) = some (written ++ '=' :: value) :=
    dropLast?_concat _ rfl
  have hcut : cut? '=' (written ++ '=' :: value) = some (written, value) := cut?_eq_some_iff.2 ⟨rfl, hequals⟩
  unfold scopeKey?
  simp only [hroot, hfirst, hlast, hcut, hattr, hname, Option.bind_eq_bind, Option.bind_some, if_false, and_self, if_true]

/-- **An exact selector has the key of its theme.** -/
theorem scopeKey?_of_exact (h : Exact attr selector name) : scopeKey? attr selector = some (themeKey attr name) := by
  obtain ⟨g, value, hg, hvalue, rfl⟩ := h.written
  have hbrackets : trim (g.text attr value) =
      '[' :: (g.attrLead ++ attr ++ g.attrTail ++ '=' :: (g.valueLead ++ value ++ g.valueTail) ++ [']']) := by
    unfold Gaps.text
    rw [trim_surrounded hg.outside.1 hg.outside.2, trim_eq_self_iff]
    exact tight_append (a := ['[']) (b := [']']) (by decide) (by decide) (trim_eq_self_iff.1 (by decide))
      (trim_eq_self_iff.1 (by decide)) _
  have hequals : '=' ∉ g.attrLead ++ attr ++ g.attrTail := by
    have hlead := not_mem_of_blank (c := '=') (by decide) hg.attr.1
    have htail := not_mem_of_blank (c := '=') (by decide) hg.attr.2
    simp [hlead, htail, h.undivided]
  have hattr : trim (g.attrLead ++ attr ++ g.attrTail) = attr := by
    rw [trim_surrounded hg.attr.1 hg.attr.2]
    exact trim_eq_self_iff.2 h.tight
  have hread : unquote (trim (g.valueLead ++ value ++ g.valueTail)) = name := by
    rw [trim_surrounded hg.value.1 hg.value.2, (hvalue.isWord h.named).trim]
    exact unquote_spelled h.named hvalue
  have hkey := scopeKey?_of_brackets hbrackets hequals hattr (hread.symm ▸ h.named)
  rwa [hread] at hkey

/-- the blanks and quotes of a selector are found again -/
theorem exact_of_brackets {written value : Text} (h : trim selector = '[' :: (written ++ '=' :: value ++ [']']))
    (hequals : '=' ∉ written) (hname : isName (unquote (trim value)) = true) :
    Exact (trim written) selector (unquote (trim value)) := by
  obtain ⟨before, after, hselector, hbefore, hafter⟩ := trim_decompose selector
  obtain ⟨attrLead, attrTail, hwritten, hattrLead, hattrTail⟩ := trim_decompose written
  obtain ⟨valueLead, valueTail, hvalue, hvalueLead, hvalueTail⟩ := trim_decompose value
  have hspelled : Spelled (unquote (trim value)) (trim value) := by
    rcases unquote_eq_or (trim value) with he | ⟨q, hq, he⟩
    · rw [he]
      exact .unquoted
    · have hliteral : Spelled (unquote (trim value)) (quoted q (unquote (trim value))) := .literal hq
      rwa [quoted, ← he] at hliteral
  refine ⟨tight_trim written, fun hm => hequals ((trim_sublist written).subset hm), hname,
    ⟨before, attrLead, attrTail, valueLead, valueTail, after⟩, trim value, ?_, hspelled, ?_⟩
  · exact ⟨⟨hbefore, hafter⟩, ⟨hattrLead, hattrTail⟩, hvalueLead, hvalueTail⟩
  · unfold Gaps.text
    simp only
    rw [← hwritten, ← hvalue, ← h]
    exact hselector

/-- **The selectors with a key** are the global scope and the exact selectors. -/
theorem scopeKey?_eq_some_iff : scopeKey? attr selector = some key ↔
    (trim selector = rootKey ∧ key = rootKey) ∨ ∃ name, Exact attr selector name ∧ key = themeKey attr name := by
  constructor
  · intro h
    rcases scopeKey?_cases h with hroot | ⟨written, value, hexact, hequals, rfl, hname, hkey⟩
    · exact Or.inl hroot
    · exact Or.inr ⟨_, exact_of_brackets hexact hequals hname, hkey⟩
  · rintro (⟨hroot, rfl⟩ | ⟨name, hexact, rfl⟩)
    · unfold scopeKey?
      rw [if_pos hroot]
    · exact scopeKey?_of_exact hexact

/-! ## Keys -/

/-- **The key of a theme is one way to write it**: no blanks, double quotes. -/
theorem exact_themeKey (h : Exact attr selector name) : Exact attr (themeKey attr name) name := by
  refine ⟨h.tight, h.undivided, h.named, ⟨[], [], [], [], [], []⟩, quoted '"' name, by decide, .literal rfl, ?_⟩
  simp [themeKey, Gaps.text, quoted]

theorem themeKey_ne_rootKey (attr name : Text) : themeKey attr name ≠ rootKey := by
  intro he
  exact absurd (List.cons.inj he).1 (by decide)

theorem themeKey_injective (attr : Text) : Function.Injective (themeKey attr) := by
  intro name name' he
  have hscope : scopeOf attr (some name) = scopeOf attr (some name') := he
  exact Option.some.inj (scopeOf_injective hscope)

/-- a text without equals signs is passed up to the quote -/
theorem cutAtQuoted?_append {before : Text} (h : '=' ∉ before) (after : Text) :
    keyTheme?.cutAtQuoted? (before ++ '=' :: '"' :: after) = some (before, after) := by
  induction before with
  | nil => rfl
  | cons c before ih =>
    obtain ⟨hc, hbefore⟩ : '=' ≠ c ∧ '=' ∉ before := by simpa using h
    rw [List.cons_append, keyTheme?.cutAtQuoted?, ih hbefore]
    · rfl
    · intro _ he
      exact absurd he.symm hc

/-- **The name in a key is read back.** -/
theorem keyTheme?_themeKey (h : '=' ∉ attr) (name : Text) : keyTheme? (themeKey attr name) = some name := by
  have hkey : themeKey attr name = '[' :: attr ++ '=' :: '"' :: (name ++ ['"'] ++ [']']) := by simp [themeKey]
  have hfront : '=' ∉ '[' :: attr := by simp [h]
  have hcut := cutAtQuoted?_append hfront (name ++ ['"'] ++ [']'])
  unfold keyTheme?
  rw [hkey, hcut]
  simp only [Option.bind_eq_bind, Option.bind_some]
  rw [dropLast?_concat _ (by decide), Option.bind_some, dropLast?_concat _ (by decide)]

end

end Selector

/-! ## Themes of maps -/

namespace VariableMap

open Selector

variable (config : ScopeConfig) (rules : List Rule)

/-- a scope is in the map if a rule has its key -/
theorem exists_scopeKey?_of_mem_keys {key : Text} (h : key ∈ (ofRules config rules).keys) :
    ∃ r ∈ rules, scopeKey? config.themeAttribute r.selector = some key := by
  obtain ⟨d, hd⟩ := mem_keys.1 h
  by_contra hnone
  have hother : ∀ a ∈ rules.flatMap (assignments config), a.1 ≠ key := by
    intro a ha he
    obtain ⟨r, hr, ha⟩ := List.mem_flatMap.1 ha
    unfold assignments at ha
    split at ha
    · cases ha
    · rename_i k hk
      obtain ⟨d, -, rfl⟩ := List.mem_map.1 ha
      exact hnone ⟨r, hr, he ▸ hk⟩
  have hempty : (ofRules config rules).scope? key = empty.scope? key := scope?_assign_of_forall_ne hother
  rw [hempty] at hd
  cases hd

/-- the scopes of a map are the global one and themes -/
theorem cases_of_mem_keys {key : Text} (h : key ∈ (ofRules config rules).keys) :
    key = rootKey ∨ '=' ∉ config.themeAttribute ∧ ∃ name, key = themeKey config.themeAttribute name := by
  obtain ⟨r, -, hr⟩ := exists_scopeKey?_of_mem_keys config rules h
  rcases scopeKey?_eq_some_iff.1 hr with ⟨-, hroot⟩ | ⟨name, hexact, hkey⟩
  · exact Or.inl hroot
  · exact Or.inr ⟨hexact.undivided, name, hkey⟩

/-- **The themes of a map are the names in its keys**, in their order. -/
theorem map_themeNames :
    (ofRules config rules).themeNames.map (themeKey config.themeAttribute) =
      (ofRules config rules).keys.filter (· ≠ rootKey) := by
  have hcases : ∀ key ∈ (ofRules config rules).keys,
      key = rootKey ∨ '=' ∉ config.themeAttribute ∧ ∃ name, key = themeKey config.themeAttribute name :=
    fun _ => cases_of_mem_keys config rules
  unfold themeNames
  generalize (ofRules config rules).keys = keys at hcases
  induction keys with
  | nil => rfl
  | cons key keys ih =>
    have hrest := ih fun k hk => hcases k (List.mem_cons_of_mem _ hk)
    rcases hcases key List.mem_cons_self with rfl | ⟨hattr, name, rfl⟩
    · have hnone : keyTheme? rootKey = none := rfl
      rw [List.filterMap_cons_none hnone, hrest]
      simp
    · rw [List.filterMap_cons_some (keyTheme?_themeKey hattr name), List.map_cons, hrest]
      simp [themeKey_ne_rootKey]

theorem nodup_themeNames : (ofRules config rules).themeNames.Nodup := by
  have hkeys : (ofRules config rules).keys.Nodup :=
    (wellFormed_addRules wellFormed_empty config rules).keys_pairwise.imp ne_of_lt
  refine List.Nodup.of_map (themeKey config.themeAttribute) ?_
  rw [map_themeNames]
  exact hkeys.filter _

end VariableMap

namespace Selector

/-- **Scope keys are canonical.** The selectors with a key are the global scope, blanks aside, and the exact selectors of
themes; a key has itself as its key. Two exact selectors have one key if and only if their names are equal, whatever
blanks and quotes they are written with. No selector that begins with a theme has the key of the global scope. In a map
that is collected from rules, the themes are the names in the keys other than the global one, in the order of the keys,
each of them once. -/
theorem scope_keys_canonical (attr : Text) :
    (∀ s key, scopeKey? attr s = some key ↔
      (trim s = rootKey ∧ key = rootKey) ∨ ∃ name, Exact attr s name ∧ key = themeKey attr name) ∧
    (∀ s key, scopeKey? attr s = some key → scopeKey? attr key = some key) ∧
    (∀ s s' name name', Exact attr s name → Exact attr s' name' →
      (scopeKey? attr s = scopeKey? attr s' ↔ name = name')) ∧
    (∀ s name, Exact attr s name ∨ themeName? attr s = some name → scopeKey? attr s ≠ some rootKey) ∧
    ∀ config rules, config.themeAttribute = attr →
      let m := VariableMap.ofRules config rules
      m.themeNames.map (themeKey attr) = m.keys.filter (· ≠ rootKey) ∧ m.themeNames.Nodup := by
  refine ⟨fun s key => scopeKey?_eq_some_iff, ?_, ?_, ?_, ?_⟩
  · intro s key h
    rcases scopeKey?_eq_some_iff.1 h with ⟨-, rfl⟩ | ⟨name, hexact, rfl⟩
    · exact scopeKey?_eq_some_iff.2 (Or.inl ⟨by decide, rfl⟩)
    · exact scopeKey?_of_exact (exact_themeKey hexact)
  · intro s s' name name' h h'
    rw [scopeKey?_of_exact h, scopeKey?_of_exact h', Option.some.injEq]
    exact (themeKey_injective attr).eq_iff
  · rintro s name (h | h) hroot
    · rw [scopeKey?_of_exact h, Option.some.injEq] at hroot
      exact themeKey_ne_rootKey attr name hroot
    · -- the key of a theme is that theme's
      have hkey := scopeKey?_eq hroot
      rw [h] at hkey
      exact themeKey_ne_rootKey attr name hkey.symm
  · rintro config rules rfl
    exact ⟨VariableMap.map_themeNames config rules, VariableMap.nodup_themeNames config rules⟩

/-- a theme with blanks around all of its parts, in single quotes -/
def spreadSelector : Text := " [\u00a0data-theme\t=\n'dark_2'  ]\x0c".toList

/-- themes and the global scope, in several spellings each -/
def respelledRules : List Rule :=
  (Stylesheet.parse {} ⟨0⟩ ("[data-theme=dark_2]\x7b--a:1\x7d:root\x7b--a:2\x7d[ data-theme = 'b' ]\x7b--a:3\x7d" ++
    "[data-theme=\"dark_2\"]\x7b--b:4\x7d[data-theme=b] .c\x7b--a:5\x7d").toList).rules

theorem scope_keys_canonical_spread :
    let attr := "data-theme".toList
    let bare := "[data-theme=dark_2]".toList
    let m := VariableMap.ofRules {} respelledRules
    Exact attr spreadSelector "dark_2".toList ∧ Exact attr bare "dark_2".toList ∧
    scopeKey? attr spreadSelector = some "[data-theme=\"dark_2\"]".toList ∧
    scopeKey? attr "[data-theme=\"dark_2\"]".toList = some "[data-theme=\"dark_2\"]".toList ∧
    scopeKey? attr spreadSelector = scopeKey? attr bare ∧ scopeKey? attr spreadSelector ≠ some rootKey ∧
    m.keys.filter (· ≠ rootKey) = ["[data-theme=\"b\"]".toList, "[data-theme=\"dark_2\"]".toList] ∧
    m.themeNames.map (themeKey attr) = m.keys.filter (· ≠ rootKey) ∧ m.themeNames.Nodup := by
  intro attr bare m
  have hattr : Tight attr := trim_eq_self_iff.1 (by decide)
  have hspread : Exact attr spreadSelector "dark_2".toList :=
    ⟨hattr, by decide, by decide, ⟨" ".toList, "\u00a0".toList, "\t".toList, "\n".toList, "  ".toList, "\x0c".toList⟩,
      quoted '\'' "dark_2".toList, by decide, .literal rfl, by decide⟩
  have hbare : Exact attr bare "dark_2".toList :=
    ⟨hattr, by decide, by decide, ⟨[], [], [], [], [], []⟩, "dark_2".toList, by decide, .unquoted, by decide⟩
  obtain ⟨hkeys, hcanonical, hsame, hroot, hnames⟩ := scope_keys_canonical attr
  have hkey : scopeKey? attr spreadSelector = some "[data-theme=\"dark_2\"]".toList :=
    (hkeys _ _).2 (Or.inr ⟨_, hspread, by decide⟩)
  obtain ⟨hmap, hnodup⟩ := hnames {} respelledRules rfl
  refine ⟨hspread, hbare, hkey, hcanonical _ _ hkey, (hsame _ _ _ _ hspread hbare).2 rfl, hroot _ _ (Or.inl hspread), ?_,
    hmap, hnodup⟩
  decide +kernel

end Selector

end StyleCheck
