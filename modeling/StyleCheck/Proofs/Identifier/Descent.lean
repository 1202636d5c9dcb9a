/-
Descending into blocks ends.

To find the identifiers in a group its body is parsed again, and this text is made, not given: comments are taken out of
it, preludes are normalized and bodies are trimmed. None of this makes a text longer, so a rule is smaller, with its
selector and its two braces, than the body it was found in. `collect?` descends through a given number of levels and no
further, and more than half as many levels as the longest body has bytes are enough for it.
- `byteSize_normalize_le`: a normal form is no larger than its prelude;
- `rule_size_le`: a rule with its braces is no larger than the text it was parsed from;
- `collect?_eq`: with so many levels the descent reaches everything;
- `Visited.size_le`: every level takes two bytes of the longest body;
- `extraction_bounded`: the measure and the depth of the descent.
-/
import StyleCheck.Identifier.Extract
import StyleCheck.Proofs.Parse.Clean
import StyleCheck.Proofs.Text.Respacing

namespace StyleCheck

open Text

/-! ## Sizes -/

theorem byteSize_pos {t : Text} (h : t ≠ []) : 0 < byteSize t := by
  obtain ⟨c, t, rfl⟩ := List.exists_cons_of_ne_nil h
  have hc := Char.utf8Size_pos c
  rw [byteSize_cons]
  omega

/-- **A normal form is no larger than its prelude**: a blank between two words is a space. -/
theorem byteSize_normalize_le : ∀ t : Text, byteSize (Selector.normalize t) ≤ byteSize t
  | [] => Nat.le_refl _
  | [c] => by
    by_cases hc : isBlank c = true
    · rw [Selector.normalize_cons_blank hc]
      exact Nat.zero_le _
    · rw [Bool.not_eq_true] at hc
      unfold Selector.normalize
      rw [words_of_isWord (isWord_singleton hc)]
      exact Nat.le_refl _
  | c :: d :: t => by
    -- the same cases as in the retouching of a prelude: a word goes on, or it ends after one character
    by_cases hc : isBlank c = true
    · have ih := byteSize_normalize_le (d :: t)
      rw [Selector.normalize_cons_blank hc, byteSize_cons]
      omega
    rw [Bool.not_eq_true] at hc
    by_cases hd : isBlank d = true
    · have ih := byteSize_normalize_le t
      have hspace : (' ').utf8Size ≤ d.utf8Size := Char.utf8Size_pos d
      rw [normalize_cons_solid_blank hc hd]
      split
      · simp
      · simp only [byteSize_append, byteSize_cons, byteSize_nil]
        omega
    · have ih := byteSize_normalize_le (d :: t)
      rw [Bool.not_eq_true] at hd
      rw [normalize_cons_solid_solid c hc hd, byteSize_cons, byteSize_cons c]
      omega

namespace Stylesheet

/-- **A rule with its braces is no larger than the text it was parsed from.** -/
theorem rule_size_le {config : ParseConfig} {source : SourceId} {line : Nat} {text : Text} {r : Rule}
    (h : r ∈ (parseAt config source line text).rules) : byteSize r.selector + byteSize r.body + 2 ≤ byteSize text := by
  obtain ⟨b, hb, n, hn⟩ := mem_rules_parseAt h
  obtain ⟨hs, -, hbody, -, -⟩ := of_toRule? hn
  have hselector : byteSize r.selector ≤ byteSize b.prelude := hs ▸ byteSize_normalize_le b.prelude
  have htrimmed : byteSize r.body ≤ byteSize b.body := hbody ▸ byteSize_le_of_sublist (trim_sublist b.body)
  calc byteSize r.selector + byteSize r.body + 2
    _ ≤ b.size := by unfold Block.size; omega
    _ ≤ byteSize (Comment.run (Comment.start line) text).text := Block.block_size_le hb
    _ ≤ byteSize text := byteSize_le_of_sublist (Comment.text_sublist line text)

end Stylesheet

/-! ## Levels -/

/-- if there is something for each element, there is something for all of them -/
theorem mapM_eq_some {α β : Type} {f : α → Option β} {g : α → β} {l : List α} (h : ∀ a ∈ l, f a = some (g a)) :
    l.mapM f = some (l.map g) := by
  induction l with
  | nil => rfl
  | cons a l ih =>
    rw [List.mapM_cons, h a List.mem_cons_self, ih fun b hb => h b (List.mem_cons_of_mem a hb)]
    rfl

namespace Rule

/-- size of the longest body in a list of rules -/
def longestBody (rules : List Rule) : Nat := rules.foldr (fun r n => max (byteSize r.body) n) 0

theorem size_le_longestBody {rules : List Rule} {r : Rule} (h : r ∈ rules) : byteSize r.body ≤ longestBody rules := by
  induction rules with
  | nil => cases h
  | cons a rules ih =>
    rcases List.mem_cons.1 h with rfl | h
    · exact Nat.le_max_left _ _
    · exact Nat.le_trans (ih h) (Nat.le_max_right _ _)

/-- the identifiers of rules and of the rules in their bodies, through so many levels; nothing if there are more -/
def collect? (config : ParseConfig) (extra : List Text) : Nat → List Rule → Option (List Occurrence)
  | 0, rules => if rules.isEmpty then some [] else none
  | n + 1, rules =>
    (rules.mapM fun r =>
      if r.kind = .keyframes then some (r.keyframe ++ r.properties)
      else if r.isGroup then collect? config extra n (Stylesheet.parseBody config r).rules
      else some (r.selectorNames ++ r.properties ++ r.animations extra)).map List.flatten

/-- rules that the descent comes to, with the number of groups they are nested in; those of the list are in none -/
inductive Visited (config : ParseConfig) (rules : List Rule) : Nat → Rule → Prop where
  | listed {r : Rule} : r ∈ rules → Visited config rules 0 r
  | inside {n : Nat} {r r' : Rule} : Visited config rules n r → r.kind ≠ .keyframes → r.isGroup = true →
      r' ∈ (Stylesheet.parseBody config r).rules → Visited config rules (n + 1) r'

/-- **With more than half as many levels as a body has bytes, the descent reaches everything.** -/
theorem collect?_eq (config : ParseConfig) (extra : List Text) {n : Nat} {rules : List Rule}
    (h : ∀ r ∈ rules, byteSize r.body < 2 * n) :
    collect? config extra n rules = some (rules.flatMap (Rule.identifiers config extra)) := by
  induction n generalizing rules with
  | zero =>
    have hnone : rules = [] := List.eq_nil_iff_forall_not_mem.2 fun r hr => Nat.not_lt_zero _ (h r hr)
    rw [hnone]
    rfl
  | succ n ih =>
    rw [collect?, mapM_eq_some (g := Rule.identifiers config extra)]
    · rw [Option.map_some, List.flatMap_def]
    intro r hr
    rw [identifiers_eq]
    split
    · rfl
    split
    · apply ih
      intro r' hr'
      have hinner := Stylesheet.rule_size_le hr'
      have houter := h r hr
      omega
    · rfl

/-- **Every level takes two bytes of the longest body**, and what is left holds the body. -/
theorem Visited.size_le {config : ParseConfig} {rules : List Rule} {n : Nat} {r : Rule}
    (h : Visited config rules n r) : 2 * n + byteSize r.body ≤ longestBody rules := by
  induction h with
  | listed hr =>
    rw [Nat.mul_zero, Nat.zero_add]
    exact size_le_longestBody hr
  | inside _ _ _ hr' ih =>
    have hinner := Stylesheet.rule_size_le hr'
    omega

/-- **Extraction descends by a decreasing measure.** A rule found in the body of another, with its selector and its
braces, is no larger than that body. Therefore the descent through any list of rules ends: with more levels than half
the bytes of the longest body it comes to the identifiers of the list, no rule that it comes to is nested deeper than
the longest body is long, and neither are the rules in a body that it looks into, unless there is nothing in it. -/
theorem extraction_bounded (config : ParseConfig) (extra : List Text) :
    (∀ r : Rule, ∀ r' ∈ (Stylesheet.parseBody config r).rules,
      byteSize r'.selector + byteSize r'.body + 2 ≤ byteSize r.body) ∧
    ∀ rules : List Rule,
      (∀ n, longestBody rules < 2 * n →
        collect? config extra n rules = some (rules.flatMap (Rule.identifiers config extra))) ∧
      ∀ depth r, Visited config rules depth r →
        depth ≤ longestBody rules ∧ (r.body ≠ [] → depth + 1 ≤ longestBody rules) := by
  refine ⟨fun r r' hr' => Stylesheet.rule_size_le hr', ?_⟩
  intro rules
  refine ⟨?_, ?_⟩
  · intro n hn
    exact collect?_eq config extra fun r hr => Nat.lt_of_le_of_lt (size_le_longestBody hr) hn
  · intro depth r hr
    have hsize := hr.size_le
    refine ⟨by omega, ?_⟩
    intro hbody
    have hpos := byteSize_pos hbody
    omega

/-- a group with a group in its body -/
def nestedRule : Rule := ofTexts "@media print".toList "@supports (a: b)\x7b .c \x7b d: e \x7d /* f */ \x7d".toList ⟨0⟩ 0

def nestedGroup : Rule := ⟨"@supports (a: b)".toList, ".c \x7b d: e \x7d".toList, ⟨0⟩, 0, .plain, 1, 1⟩

/-- the rule in the group inside -/
def nestedPlain : Rule := ⟨".c".toList, "d: e".toList, ⟨0⟩, 0, .plain, 1, 1⟩

theorem extraction_bounded_nested :
    nestedGroup ∈ (Stylesheet.parseBody {} nestedRule).rules ∧
    byteSize nestedGroup.selector + byteSize nestedGroup.body + 2 ≤ byteSize nestedRule.body ∧
    longestBody [nestedRule] = 39 ∧ longestBody [nestedRule] < 2 * 20 ∧
    collect? {} [] 20 [nestedRule] = some ([nestedRule].flatMap (Rule.identifiers {} [])) ∧
    Visited {} [nestedRule] 2 nestedPlain ∧ nestedPlain.body ≠ [] ∧ 2 + 1 ≤ longestBody [nestedRule] := by
  have hgroup : nestedGroup ∈ (Stylesheet.parseBody {} nestedRule).rules := by decide +kernel
  have hplain : nestedPlain ∈ (Stylesheet.parseBody {} nestedGroup).rules := by decide +kernel
  have hsize : longestBody [nestedRule] = 39 := by decide +kernel
  have hlevels : longestBody [nestedRule] < 2 * 20 := by rw [hsize]; decide
  have hbody : nestedPlain.body ≠ [] := by decide
  have hlisted : Visited {} [nestedRule] 0 nestedRule := .listed (List.mem_singleton_self _)
  have houter : Visited {} [nestedRule] 1 nestedGroup := hlisted.inside (by decide +kernel) (by decide +kernel) hgroup
  have hvisited : Visited {} [nestedRule] 2 nestedPlain := houter.inside (by decide +kernel) (by decide +kernel) hplain
  obtain ⟨hmeasure, hdescent⟩ := extraction_bounded {} []
  obtain ⟨hcollect, hdepth⟩ := hdescent [nestedRule]
  exact ⟨hgroup, hmeasure nestedRule nestedGroup hgroup, hsize, hlevels, hcollect 20 hlevels, hvisited, hbody,
    (hdepth 2 nestedPlain hvisited).2 hbody⟩

end Rule

end StyleCheck
