/-
Scoped variables and counted identifiers.

A map of variables and a set of identifiers read the same bodies in two ways. The map cuts a body into declarations and
trims their properties, the set cuts it into maximal runs of identifier characters. Around a property that was trimmed
there are only blanks, the end of the declaration before and the colon (`surrounded`), and none of these belongs to an
identifier, but for blanks beyond ASCII: a property that touches one is part of a longer run. Where none does
(`Apart`), the property is a run of its own (`mem_identRuns`), so it is counted and listed with its rule.
- `bounded_run`: declarations begin where another one ends;
- `get?_assign`: a variable has the value that is assigned to it last;
- `exists_get?_ofRules`: which variables a map has;
- `variables_counted`: they are counted, unless every declaration of them touches a blank beyond ASCII.
-/
import StyleCheck.Proofs.Identifier.Lines
import StyleCheck.Proofs.Identifier.Merging
import StyleCheck.Proofs.Theme.Scopes
import StyleCheck.Proofs.Variable.Comparison

namespace StyleCheck

open Text

/-! ## Runs of their own -/

/-- no identifier goes on before or behind -/
structure Text.Bare (before after : Text) : Prop where
  before : ∀ c, before.getLast? = some c → isIdentChar c = false
  after : ∀ c, after.head? = some c → isIdentChar c = false

namespace IdentRun

theorem line_foldl (s : St) (t : Text) : (t.foldl step s).line = s.line + newlines t := by
  induction t generalizing s with
  | nil => rfl
  | cons c t ih =>
    have hline : (step s c).line = s.line + newlines [c] := by
      unfold step
      split
      · rename_i hc
        have hne : c ≠ '\n' := ne_of_class hc (by decide)
        simp [newlines, hne]
      · exact Block.line_next s.line c
    rw [List.foldl_cons, ih, hline, newlines_cons c t, Nat.add_assoc]

/-- behind a character that belongs to no identifier, none has begun -/
theorem run_foldl {s : St} (hs : s.run = []) {t : Text} (h : ∀ c, t.getLast? = some c → isIdentChar c = false) :
    (t.foldl step s).run = [] := by
  cases t using List.reverseRecOn with
  | nil => exact hs
  | append_singleton t c =>
    have hc := h c List.getLast?_concat
    rw [List.foldl_append, List.foldl_cons, List.foldl_nil, step, hc, if_neg Bool.false_ne_true]

theorem foldl_ident (s : St) {x : Text} (h : ∀ c ∈ x, isIdentChar c = true) :
    x.foldl step s = { s with run := x.reverse ++ s.run } := by
  induction x generalizing s with
  | nil => rfl
  | cons c x ih =>
    obtain ⟨hc, hx⟩ := List.forall_mem_cons.1 h
    rw [List.foldl_cons, ih _ hx, step, if_pos hc, List.reverse_cons, List.append_assoc]
    rfl

theorem mem_closed {s : St} {p : Nat × Text} (h : p ∈ s.runs) : p ∈ s.closed := by
  unfold St.closed
  split
  · exact h
  · exact List.mem_cons_of_mem _ h

/-- runs that were found stay found -/
theorem mem_foldl {s : St} {p : Nat × Text} (h : p ∈ s.runs) (t : Text) : p ∈ (t.foldl step s).closed := by
  induction t generalizing s with
  | nil => exact mem_closed h
  | cons c t ih =>
    apply ih
    unfold step
    split
    · exact h
    · exact mem_closed h

end IdentRun

/-- **A part of a text is a run of its own** if it is made of identifier characters and no identifier goes on around
it. -/
theorem mem_identRuns {a x b : Text} (hx : ∀ c ∈ x, isIdentChar c = true) (hne : x ≠ []) (h : Bare a b) (line : Nat) :
    (line + newlines a, x) ∈ identRuns line (a ++ x ++ b) := by
  have hrun := IdentRun.run_foldl (s := ⟨line, [], []⟩) rfl h.before
  have hline := IdentRun.line_foldl ⟨line, [], []⟩ a
  unfold identRuns
  rw [List.mem_reverse, List.foldl_append, List.foldl_append, IdentRun.foldl_ident _ hx]
  generalize a.foldl IdentRun.step ⟨line, [], []⟩ = s at hrun hline
  rw [hrun, List.append_nil, ← hline]
  have hclosed : (s.line, x) ∈ IdentRun.St.closed { s with run := x.reverse } := by
    rw [IdentRun.St.closed, if_neg (by simpa using hne), List.reverse_reverse]
    exact List.mem_cons_self
  cases b with
  | nil => exact hclosed
  | cons c b =>
    have hc := h.after c rfl
    rw [List.foldl_cons]
    apply IdentRun.mem_foldl
    rw [IdentRun.step, hc, if_neg Bool.false_ne_true]
    exact hclosed

/-! ## Where declarations stand -/

namespace Declaration

/-- nothing, or a text that ends a declaration -/
def Ended (t : Text) : Prop := ∀ c, t.getLast? = some c → c = ';' ∨ c = '{' ∨ c = '}'

/-- a declaration may begin at a byte of `u` -/
def Bounds (u : Text) (n : Nat) : Prop := ∃ before after, u = before ++ after ∧ byteSize before = n ∧ Ended before

/-- `s` is a state that reading `u` leads to, and its segments begin where they may -/
structure Bounded (u : Text) (s : St) : Prop where
  read : s.read = byteSize u
  begun : Bounds u s.begun
  segments : ∀ p ∈ s.segments, Bounds u p.1

theorem Bounds.append {u : Text} {n : Nat} (h : Bounds u n) (v : Text) : Bounds (u ++ v) n := by
  obtain ⟨before, after, hu, hn, hended⟩ := h
  exact ⟨before, after ++ v, by rw [hu, List.append_assoc], hn, hended⟩

/-- **One character** ends a segment only if it ends declarations. -/
theorem bounded_step {u : Text} {s : St} (h : Bounded u s) (c : Char) : Bounded (u ++ [c]) (step s c) := by
  have hsize : s.read + c.utf8Size = byteSize (u ++ [c]) := by simp [h.read]
  have hsegments : ∀ p ∈ s.segments, Bounds (u ++ [c]) p.1 := fun p hp => (h.segments p hp).append [c]
  unfold step
  split
  · rename_i hend
    refine ⟨hsize, ⟨u ++ [c], [], (List.append_nil _).symm, hsize.symm, ?_⟩, ?_⟩
    · intro d hd
      obtain rfl : c = d := by simpa using hd
      unfold St.isEnd at hend
      simpa [or_assoc] using (Bool.and_eq_true_iff.1 hend).2
    · exact List.forall_mem_cons.2 ⟨h.begun.append [c], hsegments⟩
  · exact ⟨hsize, h.begun.append [c], hsegments⟩

/-- **So does every text.** -/
theorem bounded_run (u : Text) : Bounded u (u.foldl step start) := by
  induction u using List.reverseRecOn with
  | nil => exact ⟨rfl, ⟨[], [], rfl, rfl, nofun⟩, by simp [start]⟩
  | append_singleton u c ih =>
    rw [List.foldl_append]
    exact bounded_step ih c

theorem bounds_of_mem_segments {body : Text} {p : Nat × Text} (h : p ∈ segments body) : Bounds body p.1 := by
  have hrun := bounded_run body
  rcases List.mem_cons.1 (List.mem_reverse.1 h) with rfl | hp
  · exact hrun.begun
  · exact hrun.segments p hp

/-- a text is cut at a byte in one way -/
theorem prefix_unique {a b a' b' : Text} (h : a ++ b = a' ++ b') (hsize : byteSize a = byteSize a') : a = a' := by
  induction a generalizing a' with
  | nil =>
    cases a' with
    | nil => rfl
    | cons c a' =>
      have hpos := c.utf8Size_pos
      rw [byteSize_nil, byteSize_cons] at hsize
      omega
  | cons c a ih =>
    cases a' with
    | nil =>
      have hpos := c.utf8Size_pos
      rw [byteSize_nil, byteSize_cons] at hsize
      omega
    | cons c' a' =>
      obtain ⟨rfl, hrest⟩ := List.cons.inj h
      rw [byteSize_cons, byteSize_cons, Nat.add_left_cancel_iff] at hsize
      rw [ih hrest hsize]

/-- **What a property is surrounded by**: blanks and what ends a declaration on the left, blanks and a colon on the
right. -/
theorem surrounded {body : Text} {d : Declaration} (h : d ∈ ofBody body) :
    ∃ before after, body = before ++ d.property ++ after ∧ byteSize before = d.offset ∧
      (∀ c, before.getLast? = some c → isBlank c = true ∨ c = ';' ∨ c = '{' ∨ c = '}') ∧
      ∀ c, after.head? = some c → isBlank c = true ∨ c = ':' := by
  obtain ⟨⟨begun, segment⟩, hmem, hd⟩ := List.mem_filterMap.1 h
  obtain ⟨a, b, hbody, hbegun⟩ := mem_segments hmem
  obtain ⟨u, v, hcut, hsize, hended⟩ := bounds_of_mem_segments hmem
  have hsame : u ++ v = a ++ (segment ++ b) := by rw [← hcut, hbody, List.append_assoc]
  obtain rfl : u = a := prefix_unique hsame (hsize.trans hbegun.symm)
  obtain ⟨written, value, hsegment, hproperty, -, hoffset⟩ := of_ofSegment? hd
  obtain ⟨tail, hwritten, htail⟩ := takeWhile_append_trim written
  refine ⟨u ++ written.takeWhile isBlank, tail ++ ':' :: value ++ b, ?_, ?_, ?_, ?_⟩
  · rw [hbody, hsegment, hproperty]
    conv_lhs => rw [hwritten]
    simp
  · rw [byteSize_append, hoffset, hsize]
  · intro c hc
    rw [List.getLast?_append, Option.or_eq_some_iff] at hc
    rcases hc with hblank | ⟨-, hlast⟩
    · exact Or.inl (blank_takeWhile written c (List.mem_of_getLast? hblank))
    · exact Or.inr (hended c hlast)
  · intro c hc
    cases tail with
    | nil => exact Or.inr (Option.some.inj hc).symm
    | cons e tail =>
      obtain rfl : e = c := Option.some.inj hc
      exact Or.inl (htail e List.mem_cons_self)

/-- the characters that the property touches are ASCII ones -/
def Apart (body : Text) (d : Declaration) : Prop :=
  ∃ before after, body = before ++ d.property ++ after ∧ byteSize before = d.offset ∧
    (∀ c, before.getLast? = some c → c.toNat < 0x80) ∧ ∀ c, after.head? = some c → c.toNat < 0x80

theorem not_ident_of_ascii {c : Char} (hascii : c.toNat < 0x80) (hname : isNameChar c = false) :
    isIdentChar c = false := by
  rw [isIdentChar, hname, Bool.false_or, decide_eq_false_iff_not]
  omega

/-- **A property that touches ASCII characters only** stands where an identifier may. -/
theorem bare_of_apart {body : Text} {d : Declaration} (hd : d ∈ ofBody body) (h : d.Apart body) :
    ∃ before after, body = before ++ d.property ++ after ∧ byteSize before = d.offset ∧ Bare before after := by
  obtain ⟨before, after, hbody, hsize, hleft, hright⟩ := surrounded hd
  obtain ⟨before', after', hbody', hsize', hbefore, hafter⟩ := h
  have hsame : before ++ (d.property ++ after) = before' ++ (d.property ++ after') := by
    rw [← List.append_assoc, ← hbody, hbody', List.append_assoc]
  obtain rfl := prefix_unique hsame (hsize.trans hsize'.symm)
  obtain rfl : after = after' := List.append_cancel_left (List.append_cancel_left hsame)
  have hblank {c : Char} (hc : isBlank c = true) : isNameChar c = false := by
    by_contra hname
    rw [not_blank_of_nameChar (by simpa using hname)] at hc
    cases hc
  refine ⟨before, after, hbody, hsize, ?_, ?_⟩
  · intro c hc
    apply not_ident_of_ascii (hbefore c hc)
    rcases hleft c hc with hb | rfl | rfl | rfl
    · exact hblank hb
    all_goals decide
  · intro c hc
    apply not_ident_of_ascii (hafter c hc)
    rcases hright c hc with hb | rfl
    · exact hblank hb
    · decide

/-- what is trimmed and taken for a property is a name -/
theorem isName_of_mem_ofBody {body : Text} {d : Declaration} (h : d ∈ ofBody body) : isName d.property = true := by
  obtain ⟨⟨begun, segment⟩, -, hd⟩ := List.mem_filterMap.1 h
  unfold ofSegment? at hd
  obtain ⟨⟨before, value⟩, -, hd⟩ := Option.bind_eq_some_iff.1 hd
  simp only at hd
  split at hd
  · rename_i hname
    cases hd
    exact hname
  · cases hd

end Declaration

/-! ## Rules of a scope -/

theorem Selector.atKeyword?_eq_none {selector : Text} (h : selector.head? ≠ some '@') : atKeyword? selector = none := by
  cases selector with
  | nil => rfl
  | cons c t =>
    unfold atKeyword?
    split
    · rename_i heq
      obtain ⟨rfl, -⟩ := List.cons.inj heq
      exact absurd rfl h
    · rfl

/-- the selector of a scope is not that of an at-rule -/
theorem Selector.atKeyword?_of_scopeKey? {attr selector key : Text} (h : scopeKey? attr selector = some key) :
    atKeyword? selector = none := by
  obtain ⟨lead, tail, hs, hlead, -⟩ := trim_decompose selector
  have hfirst : ∃ c t, trim selector = c :: t ∧ c ≠ '@' := by
    unfold scopeKey? at h
    simp only at h
    split at h
    · rename_i hroot
      exact ⟨_, _, hroot, by decide⟩
    · obtain ⟨t, hbracket, -⟩ := Option.bind_eq_some_iff.1 h
      exact ⟨'[', t, dropFirst?_eq_some_iff.1 hbracket, by decide⟩
  obtain ⟨c, t, ht, hc⟩ := hfirst
  apply atKeyword?_eq_none
  rw [hs, ht]
  cases lead with
  | nil => exact fun he => hc (Option.some.inj he)
  | cons e lead =>
    intro he
    obtain rfl : e = '@' := Option.some.inj he
    exact absurd (hlead '@' List.mem_cons_self) (by decide)

/-- **A rule of a scope holds all its custom properties itself.** -/
theorem Rule.Parsed.properties_of_scope {r : Rule} (h : r.Parsed) {attr key : Text}
    (hscope : Selector.scopeKey? attr r.selector = some key) (config : ParseConfig) (extra : List Text) :
    ∀ o ∈ r.properties, o ∈ r.identifiers config extra := by
  intro o ho
  obtain ⟨attr', hk⟩ := h.kind
  have hnone := Selector.atKeyword?_of_scopeKey? hscope
  have hkind : r.kind ≠ .keyframes ∧ r.kind ≠ .media := by
    rw [hk, Selector.kind, hnone]
    simp only
    split <;> exact ⟨nofun, nofun⟩
  have hgroup : r.isGroup = false := by
    rw [isGroup, Selector.isGrouping, hnone, Bool.or_false]
    exact decide_eq_false hkind.2
  rw [identifiers_plain hkind.1 hgroup, List.append_assoc]
  exact List.mem_append_right _ (List.mem_append_left _ ho)

/-! ## Which variables a map has -/

namespace VariableMap

/-- setting a property of a scope changes that property -/
theorem get?_insert {m : VariableMap} (h : m.WellFormed) (scope name value key n : Text) :
    (m.insert scope name value).get? key n = if scope = key ∧ name = n then some value else m.get? key n := by
  have hsorted : ((m.scope? scope).getD .empty).Sorted := by
    cases hm : m.scope? scope with
    | none => exact Dictionary.sorted_empty
    | some d => exact (h.each hm).1
  unfold get?
  by_cases hkey : scope = key
  · subst hkey
    have hself : (m.insert scope name value).scope? scope = some (((m.scope? scope).getD .empty).insert name value) :=
      Dictionary.get?_alter_self scope _ h.sorted
    rw [hself, Option.bind_some]
    by_cases hname : name = n
    · subst hname
      rw [if_pos ⟨rfl, rfl⟩]
      exact Dictionary.get?_alter_self name _ hsorted
    · rw [if_neg fun hboth => hname hboth.2]
      exact (Dictionary.get?_alter_of_ne name _ _ hname).trans (ScopeDiff.get?_getD m scope n)
  · have hother : (m.insert scope name value).scope? key = m.scope? key :=
      Dictionary.get?_alter_of_ne scope _ m.scopes hkey
    rw [hother, if_neg fun hboth => hkey hboth.1]

/-- a variable has the value that is assigned to it last -/
theorem get?_assign {m : VariableMap} (h : m.WellFormed) (as : List (Text × Text × Text)) (key name : Text) :
    (assign m as).get? key name =
      ((as.filter fun a => a.1 = key ∧ a.2.1 = name).getLast?.map (·.2.2)).or (m.get? key name) := by
  induction as using List.reverseRecOn with
  | nil => rfl
  | append_singleton as a ih =>
    have hstep : assign m (as ++ [a]) = (assign m as).insert a.1 a.2.1 a.2.2 := by
      unfold assign
      rw [List.foldl_append]
      rfl
    have hassigned : (assign m as).WellFormed := wellFormed_foldl h as
    rw [hstep, get?_insert hassigned, List.filter_append]
    by_cases ha : a.1 = key ∧ a.2.1 = name
    · rw [if_pos ha]
      simp [ha]
    · rw [if_neg ha, ih]
      simp [ha]

theorem exists_get?_assign {m : VariableMap} (h : m.WellFormed) (as : List (Text × Text × Text)) (key n : Text) :
    (∃ value, (assign m as).get? key n = some value) ↔
      (∃ value, m.get? key n = some value) ∨ ∃ a ∈ as, a.1 = key ∧ a.2.1 = n := by
  rw [get?_assign h, or_comm]
  have hassigned : (∃ a ∈ as, a.1 = key ∧ a.2.1 = n) ↔ as.filter (fun a => a.1 = key ∧ a.2.1 = n) ≠ [] := by
    simp [List.filter_eq_nil_iff]
  rw [hassigned]
  generalize as.filter (fun a => a.1 = key ∧ a.2.1 = n) = assigned
  cases assigned using List.reverseRecOn with
  | nil => simp
  | append_singleton assigned a => simp

/-- `d` is a declaration of the variable `name` in a rule of the scope `key` -/
structure Declares (config : ScopeConfig) (r : Rule) (d : Declaration) (key name : Text) : Prop where
  scope : Selector.scopeKey? config.themeAttribute r.selector = some key
  mem : d ∈ Declaration.ofBody r.body
  custom : Declaration.isCustom d.property = true
  name : d.property = name

theorem mem_assignments {config : ScopeConfig} {r : Rule} {key n : Text} :
    (∃ a ∈ assignments config r, a.1 = key ∧ a.2.1 = n) ↔ ∃ d, Declares config r d key n := by
  unfold assignments
  cases hscope : Selector.scopeKey? config.themeAttribute r.selector with
  | none =>
    constructor
    · rintro ⟨a, ha, -⟩
      cases ha
    · rintro ⟨d, hd⟩
      have := hd.scope
      rw [hscope] at this
      cases this
  | some k =>
    constructor
    · rintro ⟨a, ha, rfl, rfl⟩
      obtain ⟨d, hd, rfl⟩ := List.mem_map.1 ha
      obtain ⟨hd, hcustom⟩ := List.mem_filter.1 hd
      exact ⟨d, hscope, hd, hcustom, rfl⟩
    · rintro ⟨d, hd⟩
      have hkey : k = key := Option.some.inj (hscope.symm.trans hd.scope)
      exact ⟨_, List.mem_map_of_mem (List.mem_filter.2 ⟨hd.mem, hd.custom⟩), hkey, hd.name⟩

/-- **The variables of a map** are those that rules of their scope declare. -/
theorem exists_get?_ofRules (config : ScopeConfig) (rules : List Rule) (key n : Text) :
    (∃ value, (ofRules config rules).get? key n = some value) ↔
      ∃ r ∈ rules, ∃ d, Declares config r d key n := by
  unfold ofRules
  rw [addRules_eq, exists_get?_assign wellFormed_empty]
  have hempty : ¬∃ value, empty.get? key n = some value := nofun
  rw [or_iff_right hempty]
  constructor
  · rintro ⟨a, ha, hkey, hn⟩
    obtain ⟨r, hr, ha⟩ := List.mem_flatMap.1 ha
    exact ⟨r, hr, mem_assignments.1 ⟨a, ha, hkey, hn⟩⟩
  · rintro ⟨r, hr, hd⟩
    obtain ⟨a, ha, hkey, hn⟩ := mem_assignments.2 hd
    exact ⟨a, List.mem_flatMap.2 ⟨r, hr, ha⟩, hkey, hn⟩

/-- the occurrence of a declared property -/
def occurrence (r : Rule) (d : Declaration) : Occurrence :=
  ⟨.property, d.property, r.source, r.bodyLine + newlinesBefore d.offset r.body, r.selector⟩

/-- a declared property is found in its rule if it touches ASCII characters only -/
theorem Declares.mem_properties {config : ScopeConfig} {r : Rule} {d : Declaration} {key n : Text}
    (h : Declares config r d key n) (hapart : d.Apart r.body) : occurrence r d ∈ r.properties := by
  obtain ⟨before, after, hbody, hsize, hbare⟩ := Declaration.bare_of_apart h.mem hapart
  obtain ⟨hne, hname⟩ := isName_iff.1 (Declaration.isName_of_mem_ofBody h.mem)
  have hident : ∀ c ∈ d.property, isIdentChar c = true := by
    intro c hc
    rw [isIdentChar, hname c hc, Bool.true_or]
  have hrun := mem_identRuns hident hne hbare r.bodyLine
  have hline : newlinesBefore d.offset r.body = newlines before := by
    rw [hbody, ← hsize, List.append_assoc, Declaration.newlinesBefore_append]
  rw [← hbody, ← hline] at hrun
  exact List.mem_map.2 ⟨_, List.mem_filter.2 ⟨hrun, h.custom⟩, rfl⟩

end VariableMap

namespace Analysis

open VariableMap

/-- **Scoped variables and counted identifiers.** A variable is in the map if a rule of its scope declares it. Each
declaration of it that touches ASCII characters only is listed as an occurrence on the line of its property, with the
selector of its rule, so the variable is counted. -/
theorem variables_counted (config : AnalysisConfig) {sheets : List Stylesheet} (h : ∀ s ∈ sheets, s.IsParsed) :
    let rules := sheets.flatMap (·.rules)
    let analysis := analyze config sheets
    (∀ key name, (∃ value, analysis.variableMap.get? key name = some value) ↔
      ∃ r ∈ rules, ∃ d, Declares config.scope r d key name) ∧
    ∀ key name, ∀ r ∈ rules, ∀ d, Declares config.scope r d key name → d.Apart r.body →
      1 ≤ analysis.identifiers.count .property name ∧
      occurrence r d ∈ analysis.identifiers.occurrencesOf .property name := by
  intro rules analysis
  refine ⟨fun key name => exists_get?_ofRules config.scope rules key name, ?_⟩
  intro key name r hr d hd hapart
  obtain ⟨s, hs, hrs⟩ := List.mem_flatMap.1 hr
  have hmem : occurrence r d ∈ (s.identifiers config.parse config.reserved).occurrences := by
    unfold Stylesheet.identifiers
    rw [IdentifierSet.occurrences_ofOccurrences, List.mem_flatMap]
    exact ⟨r, hrs, ((h s hs).rule hrs).properties_of_scope hd.scope _ _ _ (hd.mem_properties hapart)⟩
  have hall : occurrence r d ∈ analysis.identifiers.occurrences := by
    change _ ∈ (IdentifierSet.reduce _).occurrences
    rw [IdentifierSet.occurrences_reduce]
    exact List.mem_flatMap.2 ⟨_, List.mem_map_of_mem hs, hmem⟩
  have hof : occurrence r d ∈ analysis.identifiers.occurrencesOf .property name :=
    List.mem_filter.2 ⟨hall, decide_eq_true ⟨rfl, hd.name⟩⟩
  refine ⟨?_, hof⟩
  have hcount := (agrees_identifiers config sheets .property).count name
  rw [IdentifierSet.count_namesIn] at hcount
  calc 1 ≤ (analysis.identifiers.occurrencesOf .property name).length := List.length_pos_of_mem hof
    _ = analysis.identifiers.count .property name := hcount.symm

/-- two sheets: a blank beyond ASCII with a space behind it, and a theme with a semicolon in parentheses -/
def spacedSheets : List Stylesheet :=
  [.parse {} ⟨0⟩ ":root\x7b --a: b;\n\u00a0 --c : d \x7d".toList,
    .parse {} ⟨1⟩ "[data-theme=e]\x7b f: url(;--a:g); --a:h \x7d".toList]

/-- the rule of the first sheet and its second declaration -/
def spacedRule : Rule := ⟨":root".toList, "--a: b;\n\u00a0 --c : d".toList, ⟨0⟩, 0, .plain, 1, 1⟩

def spacedDeclaration : Declaration := ⟨"--c".toList, "d".toList, 11⟩

theorem variables_counted_spaced :
    let analysis := analyze {} spacedSheets
    (∀ s ∈ spacedSheets, s.IsParsed) ∧
    spacedRule ∈ spacedSheets.flatMap (·.rules) ∧
    Declares {} spacedRule spacedDeclaration ":root".toList "--c".toList ∧ spacedDeclaration.Apart spacedRule.body ∧
    analysis.variableMap.get? ":root".toList "--c".toList = some "d".toList ∧
    1 ≤ analysis.identifiers.count .property "--c".toList ∧
    ⟨.property, "--c".toList, ⟨0⟩, 2, ":root".toList⟩ ∈ analysis.identifiers.occurrencesOf .property "--c".toList := by
  intro analysis
  have hparsed : ∀ s ∈ spacedSheets, s.IsParsed :=
    Stylesheet.isParsed_pair (Stylesheet.isParsed_parse _ _ _) (Stylesheet.isParsed_parse _ _ _)
  have hrule : spacedRule ∈ spacedSheets.flatMap (·.rules) := by decide +kernel
  have hdeclares : Declares {} spacedRule spacedDeclaration ":root".toList "--c".toList :=
    ⟨by decide +kernel, by decide +kernel, by decide +kernel, rfl⟩
  have hapart : spacedDeclaration.Apart spacedRule.body := by
    refine ⟨"--a: b;\n\u00a0 ".toList, " : d".toList, by decide +kernel, by decide +kernel, ?_, ?_⟩
    · intro c hc
      obtain rfl : ' ' = c := Option.some.inj hc
      decide
    · intro c hc
      obtain rfl : ' ' = c := Option.some.inj hc
      decide
  obtain ⟨-, hcounted⟩ := variables_counted {} hparsed
  exact ⟨hparsed, hrule, hdeclares, hapart, by decide +kernel, hcounted _ _ _ hrule _ hdeclares hapart⟩

/-- a property right behind a blank beyond ASCII -/
def wideSheet : Stylesheet := .parse {} ⟨0⟩ ":root\x7b--a:b;\u00a0--c:d\x7d".toList

/-- such a property is in the map, and no identifier -/
theorem variable_not_counted :
    ¬∀ (config : AnalysisConfig) (sheets : List Stylesheet), (∀ s ∈ sheets, s.IsParsed) →
      ∀ key name, (∃ value, (analyze config sheets).variableMap.get? key name = some value) →
        1 ≤ (analyze config sheets).identifiers.count .property name := by
  intro h
  have hmap : (analyze {} [wideSheet]).variableMap.get? ":root".toList "--c".toList = some "d".toList := by
    decide +kernel
  have hparsed : ∀ s ∈ [wideSheet], s.IsParsed := by
    simp only [List.forall_mem_singleton]
    exact Stylesheet.isParsed_parse _ _ _
  have hcount : (analyze {} [wideSheet]).identifiers.count .property "--c".toList = 0 := by
    have hrules : wideSheet.rules = [⟨":root".toList, "--a:b;\u00a0--c:d".toList, ⟨0⟩, 0, .plain, 1, 1⟩] := by
      decide +kernel
    change (IdentifierSet.reduce [wideSheet.identifiers {} []]).count _ _ = 0
    rw [Stylesheet.identifiers, hrules, List.flatMap_singleton, Rule.identifiers_plain]
    · decide +kernel
    · exact nofun
    · rfl
  have hpositive := h {} [wideSheet] hparsed _ _ ⟨_, hmap⟩
  rw [hcount] at hpositive
  cases hpositive

end Analysis

end StyleCheck
