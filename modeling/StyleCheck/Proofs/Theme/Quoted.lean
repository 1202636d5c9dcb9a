/-
Themes in quotes.

The theme of a selector is read in two steps: its value is cut off at the first closing bracket, and a pair of quotes is
taken off what was cut. So a value in quotes is read as it is written if it holds no closing bracket. Of any other value
only the part in front of its first closing bracket is left, behind the quote that opened it (`readValue`), and values
that agree so far are one theme.
- `themeName?_front`: a selector that begins with the attribute has the theme that its value names, cut at the bracket;
- `themeName?_quoted`: the theme of a value in quotes, whatever follows it;
- `together_iff`: a partition puts two rules into one group if they have the same theme;
- `quoted_grouped_iff`: rules of two values in quotes are in one group if the same is read of both, which comes to equal
  values where one of them holds no closing bracket;
- `quoted_run_together`: values that hold closing brackets are not told apart.
-/
import StyleCheck.Proofs.Parse.Literals
import StyleCheck.Proofs.Theme.Scopes

namespace StyleCheck

open Text

namespace Selector

/-! ## What is read of a value -/

/-- a value that is something, holds no quotes, and has no blank at either end -/
structure PlainValue (value : Text) : Prop where
  nonempty : value ≠ []
  quoteless : ∀ c ∈ value, isQuote c = false
  tight : Tight value

instance (value : Text) : Decidable (PlainValue value) :=
  decidable_of_iff (value ≠ [] ∧ value.all (!isQuote ·) = true ∧ trim value = value)
    ⟨fun ⟨hne, hall, htrim⟩ => ⟨hne, by simpa using hall, trim_eq_self_iff.1 htrim⟩,
      fun h => ⟨h.nonempty, by simpa using h.quoteless, trim_eq_self_iff.2 h.tight⟩⟩

/-- a theme attribute with its value in quotes -/
def leading (attr : Text) (q : Char) (value : Text) : Text := '[' :: attr ++ '=' :: quoted q value ++ [']']

/-- what is read of a value in quotes -/
def readValue (q : Char) (value : Text) : Text :=
  if ']' ∈ value then q :: trimEnd (value.takeWhile (· != ']')) else value

section
variable {q p : Char} {v w : Text}

theorem readValue_of_not_mem (q : Char) (h : ']' ∉ v) : readValue q v = v := if_neg h

theorem readValue_append (q : Char) {before : Text} (h : ']' ∉ before) (after : Text) :
    readValue q (before ++ ']' :: after) = q :: trimEnd before := by
  have hpass : ∀ c ∈ before, (c != ']') = true := by
    intro c hc
    have hne : c ≠ ']' := fun he => h (he ▸ hc)
    simpa using hne
  unfold readValue
  rw [if_pos (by simp), List.takeWhile_append_of_pos hpass]
  simp

/-- what is read of a value with a closing bracket begins with a quote, so it is no value -/
theorem readValue_ne (hq : isQuote q = true) (hv : PlainValue v) (hw : ']' ∈ w) : v ≠ readValue q w := by
  intro he
  have hmem : q ∈ v := by
    rw [he, readValue, if_pos hw]
    exact List.mem_cons_self
  exact ne_of_class hq (hv.quoteless q hmem) rfl

theorem readValue_eq_self_iff (hq : isQuote q = true) (hv : PlainValue v) : readValue q v = v ↔ ']' ∉ v := by
  constructor
  · intro he hm
    exact readValue_ne hq hv hm he.symm
  · exact readValue_of_not_mem q

theorem eq_readValue_iff (hp : isQuote p = true) (hv : PlainValue v) (h : ']' ∉ v) :
    v = readValue p w ↔ v = w := by
  by_cases hm : ']' ∈ w
  · have hne : v ≠ w := fun he => h (he ▸ hm)
    exact iff_of_false (readValue_ne hp hv hm) hne
  · rw [readValue_of_not_mem p hm]

/-- **Values of which one holds no closing bracket are told apart.** -/
theorem readValue_eq_iff (hq : isQuote q = true) (hp : isQuote p = true) (hv : PlainValue v) (hw : PlainValue w)
    (h : ']' ∉ v ∨ ']' ∉ w) : readValue q v = readValue p w ↔ v = w := by
  rcases h with h | h
  · rw [readValue_of_not_mem q h]
    exact eq_readValue_iff hp hv h
  · rw [readValue_of_not_mem p h, eq_comm, eq_comm (a := v)]
    exact eq_readValue_iff hq hw h

end

/-! ## The theme of a value in quotes -/

/-- the theme that a value names, if it names one -/
def nameIn? (value : Text) : Option Text :=
  if (trim (unquote (trim value))).isEmpty then none else some (trim (unquote (trim value)))

theorem nameIn?_eq {value name : Text} (h : trim (unquote (trim value)) = name) (hname : name ≠ []) :
    nameIn? value = some name := by
  unfold nameIn?
  rw [h, if_neg (by simpa using hname)]

/-- **A selector that begins with the attribute has the theme that its value names**, cut at the bracket. -/
theorem themeName?_front {attr : Text} (hattr : ∀ c ∈ attr, isNameChar c = true) (t : Text) :
    themeName? attr ('[' :: attr ++ '=' :: t) = (cut? ']' t).bind fun p => nameIn? p.1 := by
  have hopen : dropFirst? '[' (trimStart ('[' :: attr ++ '=' :: t)) = some (attr ++ '=' :: t) :=
    dropFirst?_eq_some_iff.2 (trimStart_cons (by decide) _)
  have hstart : trimStart (attr ++ '=' :: t) = attr ++ '=' :: t := by
    cases attr with
    | nil => exact trimStart_cons (by decide) t
    | cons c attr => exact trimStart_cons (not_blank_of_nameChar (hattr c List.mem_cons_self)) _
  have hprefix : attr.isPrefixOf? (trimStart (attr ++ '=' :: t)) = some ('=' :: t) := by
    rw [List.isPrefixOf?_eq_some_iff_append_eq, hstart]
  have hequals : dropFirst? '=' (trimStart ('=' :: t)) = some t :=
    dropFirst?_eq_some_iff.2 (trimStart_cons (by decide) t)
  unfold themeName?
  simp only [hopen, hprefix, hequals, Option.bind_eq_bind, Option.bind_some]
  rfl

section
variable {attr : Text} {q : Char} {value : Text}

/-- a value in quotes names what is between them -/
theorem nameIn?_whole (hq : isQuote q = true) (hv : PlainValue value) :
    nameIn? (quoted q value) = some value := by
  have htrim : trim (quoted q value) = quoted q value := by
    have hends : trim ([] ++ quoted q value ++ []) = [] ++ quoted q value ++ [] := trim_quoted hq value [] []
    rwa [List.nil_append, List.append_nil] at hends
  have hname : unquote (quoted q value) = value := unquote_between hq value
  refine nameIn?_eq ?_ hv.nonempty
  rw [htrim, hname, trim_eq_self_iff.2 hv.tight]

/-- an opening quote without a closing one is a part of the name -/
theorem nameIn?_cut (hq : isQuote q = true) (h : ∀ c ∈ value, isQuote c = false) :
    nameIn? (q :: value) = some (q :: trimEnd value) := by
  have htrim : trim (q :: value) = q :: trimEnd value := by
    have hend : trimEnd (q :: value) = q :: trimEnd value := by
      unfold trimEnd
      rw [List.reverse_cons, List.dropWhile_append]
      split
      · rename_i hempty
        rw [List.isEmpty_iff.1 hempty]
        simp [solid_of_quote hq]
      · rw [List.reverse_append]
        rfl
    rw [trim, trimStart_cons (solid_of_quote hq), hend]
  have hkept : unquote (q :: trimEnd value) = q :: trimEnd value := by
    rcases unquote_eq_or (q :: trimEnd value) with he | ⟨p, hp, he⟩
    · exact he
    · -- the last character would be a quote of the value
      have hmem : p ∈ trimEnd value := by
        have htail := (List.cons.inj he).2
        rw [htail]
        simp
      have hsub : (trimEnd value).Sublist value := by
        have hdrop := (List.dropWhile_sublist (p := isBlank) (l := value.reverse)).reverse
        rwa [List.reverse_reverse] at hdrop
      exact absurd rfl (ne_of_class hp (h p (hsub.subset hmem)))
  refine nameIn?_eq ?_ (List.cons_ne_nil _ _)
  rw [htrim, hkept, ← htrim, trim_trim]

/-- **The theme of a value in quotes** is what is read of it, whatever follows the bracket behind it. -/
theorem themeName?_quoted (hattr : ∀ c ∈ attr, isNameChar c = true) (hq : isQuote q = true) (hv : PlainValue value)
    (rest : Text) : themeName? attr (leading attr q value ++ rest) = some (readValue q value) := by
  have hsplit : leading attr q value ++ rest = '[' :: attr ++ '=' :: (q :: value ++ q :: ']' :: rest) := by
    simp [leading, quoted]
  have hbracket : ']' ≠ q := (ne_of_class hq (by decide)).symm
  rw [hsplit, themeName?_front hattr]
  by_cases hm : ']' ∈ value
  · obtain ⟨before, after, rfl, hbefore⟩ := List.eq_append_cons_of_mem hm
    have hcut : cut? ']' (q :: (before ++ ']' :: after) ++ q :: ']' :: rest) =
        some (q :: before, after ++ q :: ']' :: rest) := by
      refine cut?_eq_some_iff.2 ⟨by simp, ?_⟩
      simp [hbracket, hbefore]
    have hquoteless : ∀ c ∈ before, isQuote c = false := by
      intro c hc
      exact hv.quoteless c (List.mem_append_left _ hc)
    rw [hcut, Option.bind_some, nameIn?_cut hq hquoteless, readValue_append q hbefore]
  · have hcut : cut? ']' (q :: value ++ q :: ']' :: rest) = some (quoted q value, rest) := by
      refine cut?_eq_some_iff.2 ⟨by simp [quoted], ?_⟩
      simp [quoted, hbracket, hm]
    rw [hcut, Option.bind_some, nameIn?_whole hq hv, readValue_of_not_mem q hm]

end

end Selector

/-! ## Rules in one group -/

/-- the group has the rule, at its new position -/
def ThemeGroup.Holds (g : ThemeGroup) (r : Rule) : Prop := ∃ n, { r with position := n } ∈ g.rules

namespace ThemeSplit

open Selector Stylesheet

/-- one group has both rules -/
def Together (s : ThemeSplit) (r r' : Rule) : Prop := ∃ g ∈ s.themes, g.Holds r ∧ g.Holds r'

section
variable {attr : Text} {rules : List Rule} {r r' : Rule}

/-- **A group has the rules of its theme.** -/
theorem holds_iff {g : ThemeGroup} (hg : g ∈ (ofRules attr rules).themes) (hr : r ∈ rules) :
    g.Holds r ↔ themeName? attr r.selector = some g.name := by
  rw [ofRules_eq] at hg
  obtain ⟨name, -, rfl⟩ := List.mem_map.1 hg
  constructor
  · rintro ⟨n, hn⟩
    have hselector : r.selector ∈ (members attr rules (some name)).map (·.selector) := by
      rw [← map_numbered (·.selector) (fun _ _ => rfl) 0]
      exact List.mem_map.2 ⟨_, hn, rfl⟩
    obtain ⟨r', hr', he⟩ := List.mem_map.1 hselector
    rw [← he]
    simpa using (List.mem_filter.1 hr').2
  · intro htheme
    have hmem : r ∈ members attr rules (some name) := List.mem_filter.2 ⟨hr, by simpa using htheme⟩
    obtain ⟨i, hi, rfl⟩ := List.mem_iff_getElem.1 hmem
    exact ⟨0 + i, List.mem_mapIdx.2 ⟨i, hi, rfl⟩⟩

/-- **Two rules are in one group if they have the same theme.** -/
theorem together_iff (hr : r ∈ rules) (hr' : r' ∈ rules) :
    Together (ofRules attr rules) r r' ↔
      ∃ name, themeName? attr r.selector = some name ∧ themeName? attr r'.selector = some name := by
  constructor
  · rintro ⟨g, hg, hold, hold'⟩
    exact ⟨g.name, (holds_iff hg hr).1 hold, (holds_iff hg hr').1 hold'⟩
  · rintro ⟨name, hname, hname'⟩
    have hg : ⟨name, numbered 0 (members attr rules (some name))⟩ ∈ (ofRules attr rules).themes := by
      rw [ofRules_eq]
      exact List.mem_map_of_mem ((mem_appearing attr).2 ⟨r, hr, hname⟩)
    exact ⟨_, hg, (holds_iff hg hr).2 hname, (holds_iff hg hr').2 hname'⟩

end

/-- **Themes in quotes and their groups.** The theme of a selector that begins with a value in quotes is what is read of
the value, whatever follows: the value itself if and only if it holds no closing bracket. A partition puts two rules
whose selectors begin so into one group if and only if the same is read of both values. If one of the values holds no
closing bracket, it does so if and only if the values are equal, whichever quotes they have. -/
theorem quoted_grouped_iff {attr : Text} (hattr : ∀ c ∈ attr, isNameChar c = true) {q p : Char}
    (hq : isQuote q = true) (hp : isQuote p = true) {v w : Text} (hv : PlainValue v) (hw : PlainValue w) :
    (∀ rest, themeName? attr (leading attr q v ++ rest) = some (readValue q v)) ∧
    (∀ rest, themeName? attr (leading attr q v ++ rest) = some v ↔ ']' ∉ v) ∧
    ∀ rules, ∀ r ∈ rules, ∀ r' ∈ rules, leading attr q v <+: r.selector → leading attr p w <+: r'.selector →
      (Together (ofRules attr rules) r r' ↔ readValue q v = readValue p w) ∧
      (']' ∉ v ∨ ']' ∉ w → (Together (ofRules attr rules) r r' ↔ v = w)) := by
  have htheme := themeName?_quoted hattr hq hv
  have htheme' := themeName?_quoted hattr hp hw
  refine ⟨htheme, ?_, ?_⟩
  · intro rest
    rw [htheme, Option.some.injEq]
    exact readValue_eq_self_iff hq hv
  · intro rules r hr r' hr' hstart hstart'
    obtain ⟨rest, hrest⟩ := hstart
    obtain ⟨rest', hrest'⟩ := hstart'
    have hread : Together (ofRules attr rules) r r' ↔ readValue q v = readValue p w := by
      rw [together_iff hr hr', ← hrest, ← hrest', htheme, htheme']
      simp [eq_comm]
    exact ⟨hread, fun h => hread.trans (readValue_eq_iff hq hp hv hw h)⟩

/-- a theme with blanks in its name -/
def spacedRule : Rule := .ofTexts "[data-theme=\"a = .b\"]".toList "c:d".toList ⟨0⟩ 0

/-- a theme beyond ASCII -/
def accentedRule : Rule := .ofTexts "[data-theme='\u00e9']".toList "c:d".toList ⟨0⟩ 1

/-- the first theme in the other quotes, with more behind it -/
def respelledRule : Rule := .ofTexts "[data-theme='a = .b'] .c".toList "d:e".toList ⟨0⟩ 2

theorem quoted_grouped_iff_spaced :
    let attr := "data-theme".toList
    let v := "a = .b".toList
    let w := "\u00e9".toList
    let rules := [spacedRule, accentedRule, respelledRule]
    PlainValue v ∧ PlainValue w ∧
    leading attr '"' v <+: spacedRule.selector ∧ leading attr '\'' w <+: accentedRule.selector ∧
    leading attr '\'' v <+: respelledRule.selector ∧
    themeName? attr (leading attr '"' v ++ " .c".toList) = some v ∧
    Together (ofRules attr rules) spacedRule respelledRule ∧
    ¬Together (ofRules attr rules) spacedRule accentedRule := by
  intro attr v w rules
  have hattr : ∀ c ∈ attr, isNameChar c = true := List.all_eq_true.1 (by decide)
  have hv : PlainValue v := by decide
  have hw : PlainValue w := by decide
  have hspaced : leading attr '"' v <+: spacedRule.selector := by decide
  have haccented : leading attr '\'' w <+: accentedRule.selector := by decide
  have hrespelled : leading attr '\'' v <+: respelledRule.selector := by decide
  have hbracket : ']' ∉ v := by decide
  obtain ⟨-, htheme, hsame⟩ := quoted_grouped_iff (q := '"') (p := '\'') hattr (by decide) (by decide) hv hv
  obtain ⟨-, -, hother⟩ := quoted_grouped_iff (q := '"') (p := '\'') hattr (by decide) (by decide) hv hw
  refine ⟨hv, hw, hspaced, haccented, hrespelled, (htheme _).2 hbracket, ?_, ?_⟩
  · exact ((hsame rules _ (by simp [rules]) _ (by simp [rules]) hspaced hrespelled).2 (Or.inl hbracket)).2 rfl
  · intro h
    have he := ((hother rules _ (by simp [rules]) _ (by simp [rules]) hspaced haccented).2 (Or.inl hbracket)).1 h
    exact absurd he (by decide)

/-- two themes with a closing bracket in their names -/
def firstBracket : Rule := .ofTexts "[data-theme=\"a]b\"]".toList "c:d".toList ⟨0⟩ 0

def secondBracket : Rule := .ofTexts "[data-theme=\"a]e\"]".toList "f:g".toList ⟨0⟩ 1

/-- such themes are cut at the bracket and come into one group -/
theorem quoted_run_together :
    ¬∀ (attr : Text) (q p : Char) (v w : Text), (∀ c ∈ attr, isNameChar c = true) → isQuote q = true →
      isQuote p = true → PlainValue v → PlainValue w →
      (∀ rest, themeName? attr (leading attr q v ++ rest) = some v) ∧
      ∀ rules, ∀ r ∈ rules, ∀ r' ∈ rules, leading attr q v <+: r.selector → leading attr p w <+: r'.selector →
        (Together (ofRules attr rules) r r' ↔ v = w) := by
  intro h
  have hattr : ∀ c ∈ "data-theme".toList, isNameChar c = true := List.all_eq_true.1 (by decide)
  obtain ⟨-, hgroups⟩ := h "data-theme".toList '"' '"' "a]b".toList "a]e".toList hattr (by decide) (by decide)
    (by decide) (by decide)
  have htogether : Together (ofRules "data-theme".toList [firstBracket, secondBracket]) firstBracket secondBracket :=
    (together_iff (by simp) (by simp)).2 ⟨"\"a".toList, by decide, by decide⟩
  have hsame := (hgroups _ firstBracket (by simp) secondBracket (by simp) (by decide) (by decide)).1 htogether
  exact absurd hsame (by decide)

end ThemeSplit

end StyleCheck
