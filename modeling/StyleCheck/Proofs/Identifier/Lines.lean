/-
On which lines identifiers are found.

Extraction counts lines from that of a body on, and bodies are counted from bodies around them. Here the same is said in
terms of the text that was parsed in the first place: beside each custom property and each use of an animation stands
the part of the text that it is, a run of identifier characters (`IdentRun.traced`) or the property of a declaration
(`Declaration.traced`), and the line of the occurrence is the line of that part.
- `runs_traced`: the runs of a body, with their lines, are the runs of its trace;
- `mem_ofBody`: a declaration tells truly at which byte its property begins;
- `sites_identifiers`: what a rule holds, and where, by descending into the bodies of groups;
- `lines_exact`: the lines of all bodies, of all custom properties and of all uses of animations are those of the text.
-/
import StyleCheck.Proofs.Identifier.Grouping
import StyleCheck.Proofs.Parse.Tracing
import StyleCheck.Proofs.Text.Cutting

namespace StyleCheck

open Text Trace

/-! ## Runs -/

namespace IdentRun

/-- the run that has ended, if any, where `run` is what was read of it, last character first -/
def ended (run : Trace) : List Trace := if run.isEmpty then [] else [run.reverse]

/-- the runs of identifier characters in `w`, where `run` has been read of the first -/
def traced (run : Trace) : Trace → List Trace
  | [] => ended run
  | c :: w => if isIdentChar c.char then traced (c :: run) w else ended run ++ traced [] w

/-- a part of `t` is the run, and its first character is on the line of the run -/
structure TracedBy (t : Text) (run : Nat × Text) (y : Trace) : Prop where
  text : Trace.text y = run.2
  stands : StandsAt t run.1 y

/-- a run that has ended began on the current line -/
theorem closed_traced {t : Text} {line : Nat} {run : Trace} (h : Reads t line run.reverse) (runs : List (Nat × Text)) :
    ∃ found, (St.closed ⟨line, text run, runs⟩).reverse = runs.reverse ++ found ∧
      List.Forall₂ (TracedBy t) found (ended run) := by
  cases run with
  | nil => exact ⟨[], by simp [St.closed], .nil⟩
  | cons c run =>
    refine ⟨[(line, (text (c :: run)).reverse)], by simp [St.closed], .cons ⟨text_reverse _, ?_⟩ .nil⟩
    exact h.standsAt (by simp)

theorem newlines_of_ident {t : Text} (h : ∀ c ∈ t, isIdentChar c = true) : newlines t = 0 :=
  List.count_eq_zero.2 fun hmem => absurd (h '\n' hmem) (by decide)

/-- **The runs of a text, with their lines, are the runs of its trace.** -/
theorem runs_traced {t : Text} {line : Nat} {run w : Trace} (h : Reads t line (run.reverse ++ w))
    (hrun : ∀ c ∈ run, isIdentChar c.char = true) (runs : List (Nat × Text)) :
    ∃ found, ((text w).foldl step ⟨line, text run, runs⟩).closed.reverse = runs.reverse ++ found ∧
      List.Forall₂ (TracedBy t) found (traced run w) := by
  induction w generalizing line run runs with
  | nil => exact closed_traced h.front runs
  | cons c w ih =>
    rw [text_cons, List.foldl_cons, traced]
    split
    · rename_i hc
      have hstep : step ⟨line, text run, runs⟩ c.char = ⟨line, text (c :: run), runs⟩ := by simp [step, hc]
      rw [hstep]
      refine ih (by simpa using h) (fun d hd => ?_) runs
      rcases List.mem_cons.1 hd with rfl | hd
      · exact hc
      · exact hrun d hd
    · rename_i hc
      obtain ⟨first, hfirst, htraced⟩ := closed_traced h.front runs
      have hrest : Reads t (if c.char = '\n' then line + 1 else line) (List.reverse [] ++ w) := by
        have hline : newlines (text run.reverse) = 0 := newlines_of_ident fun d hd => by
          obtain ⟨e, he, rfl⟩ := List.mem_map.1 hd
          exact hrun e (List.mem_reverse.1 he)
        have hbehind := h.behind
        rw [hline] at hbehind
        rw [Block.line_next]
        exact Reads.behind (a := [c]) hbehind
      obtain ⟨found, hfound, hmore⟩ := ih hrest (by simp) (St.closed ⟨line, text run, runs⟩)
      have hstep : step ⟨line, text run, runs⟩ c.char =
          ⟨if c.char = '\n' then line + 1 else line, text [], St.closed ⟨line, text run, runs⟩⟩ := by simp [step, hc]
      rw [hstep]
      refine ⟨first ++ found, ?_, List.rel_append htraced hmore⟩
      rw [hfound, hfirst, List.append_assoc]

end IdentRun

/-! ## Declarations -/

namespace Declaration

/-- `part` begins at a byte of `body` -/
def BeginsAt (body : Text) (offset : Nat) (part : Text) : Prop :=
  ∃ before after, body = before ++ part ++ after ∧ byteSize before = offset

/-- `s` is a state that reading `u` leads to -/
structure Holds (u : Text) (s : St) : Prop where
  read : s.read = byteSize u
  seen : ∃ before, u = before ++ s.seen.reverse ∧ byteSize before = s.begun
  segments : ∀ p ∈ s.segments, BeginsAt u p.1 p.2

/-- **One character keeps the offsets right.** -/
theorem holds_step {u : Text} {s : St} (h : Holds u s) (c : Char) : Holds (u ++ [c]) (step s c) := by
  obtain ⟨hread, ⟨before, hseen, hbegun⟩, hsegments⟩ := h
  have hmore : ∀ p ∈ s.segments, BeginsAt (u ++ [c]) p.1 p.2 := by
    intro p hp
    obtain ⟨a, b, hu, ha⟩ := hsegments p hp
    exact ⟨a, b ++ [c], by rw [hu, List.append_assoc], ha⟩
  have hsize : s.read + c.utf8Size = byteSize (u ++ [c]) := by simp [hread]
  unfold step
  split
  · refine ⟨hsize, ⟨u ++ [c], by simp, hsize.symm⟩, fun p hp => ?_⟩
    rcases List.mem_cons.1 hp with rfl | hp
    · exact ⟨before, [c], by rw [hseen], hbegun⟩
    · exact hmore p hp
  · exact ⟨hsize, ⟨before, by simp [hseen], hbegun⟩, hmore⟩

/-- **So does every text.** -/
theorem holds_run (u : Text) : Holds u (u.foldl step start) := by
  induction u using List.reverseRecOn with
  | nil => exact ⟨rfl, ⟨[], rfl, rfl⟩, by simp [start]⟩
  | append_singleton u c ih =>
    rw [List.foldl_append]
    exact holds_step ih c

/-- a segment is cut out where it says it begins -/
theorem mem_segments {body : Text} {p : Nat × Text} (h : p ∈ segments body) : BeginsAt body p.1 p.2 := by
  obtain ⟨-, ⟨before, hseen, hbegun⟩, hsegments⟩ := holds_run body
  rcases List.mem_cons.1 (List.mem_reverse.1 h) with rfl | hp
  · exact ⟨before, [], by simpa using hseen, hbegun⟩
  · exact hsegments p hp

theorem of_ofSegment? {begun : Nat} {segment : Text} {d : Declaration} (h : ofSegment? begun segment = some d) :
    ∃ before value, segment = before ++ ':' :: value ∧ d.property = trim before ∧ d.property ≠ [] ∧
      d.offset = begun + byteSize (before.takeWhile isBlank) := by
  unfold ofSegment? at h
  obtain ⟨⟨before, value⟩, hcut, h⟩ := Option.bind_eq_some_iff.1 h
  simp only at h
  split at h
  · rename_i hname
    cases h
    refine ⟨before, value, (cut?_eq_some_iff.1 hcut).1, rfl, fun hnil => ?_, rfl⟩
    have hnil : trim before = [] := hnil
    rw [hnil] at hname
    cases hname
  · cases h

/-- **A declaration tells truly at which byte its property begins**, and the property is not empty. -/
theorem mem_ofBody {body : Text} {d : Declaration} (h : d ∈ ofBody body) :
    BeginsAt body d.offset d.property ∧ d.property ≠ [] := by
  obtain ⟨⟨begun, segment⟩, hmem, hd⟩ := List.mem_filterMap.1 h
  obtain ⟨a, b, hbody, hbegun⟩ := mem_segments hmem
  obtain ⟨before, value, hsegment, hproperty, hne, hoffset⟩ := of_ofSegment? hd
  obtain ⟨tail, hbefore, -⟩ := takeWhile_append_trim before
  refine ⟨⟨a ++ before.takeWhile isBlank, tail ++ ':' :: value ++ b, ?_, ?_⟩, hne⟩
  · rw [hbody, hsegment, hproperty]
    conv_lhs => rw [hbefore]
    simp
  · have hbegun : byteSize a = begun := hbegun
    rw [byteSize_append, hoffset, hbegun]

/-! ### Their traces -/

/-- `w` without its first bytes -/
def dropBytes : Nat → Trace → Trace
  | _, [] => []
  | n, c :: w => if n = 0 then c :: w else dropBytes (n - c.char.utf8Size) w

/-- the property of a declaration in the trace of its body -/
def traced (d : Declaration) (w : Trace) : Trace := (dropBytes d.offset w).take d.property.length

theorem dropBytes_append (a b : Trace) : dropBytes (byteSize (text a)) (a ++ b) = b := by
  induction a with
  | nil => cases b <;> simp [dropBytes]
  | cons c a ih =>
    have hpos := c.char.utf8Size_pos
    rw [List.cons_append, dropBytes, text_cons, byteSize_cons, if_neg (by omega), Nat.add_sub_cancel_left]
    exact ih

theorem newlinesBefore_append (a b : Text) : newlinesBefore (byteSize a) (a ++ b) = newlines a := by
  induction a with
  | nil => cases b <;> simp [newlinesBefore]
  | cons c a ih =>
    have hpos := c.utf8Size_pos
    rw [List.cons_append, newlinesBefore, byteSize_cons, if_neg (by omega), Nat.add_sub_cancel_left, ih,
      newlines_cons c a, Nat.add_comm]
    simp [newlines, List.count_singleton]

/-- **The property of a declaration is on the line that its offset leads to.** -/
theorem traced_spec {t : Text} {line : Nat} {w : Trace} (h : Reads t line w) {d : Declaration}
    (hd : d ∈ ofBody (text w)) :
    text (d.traced w) = d.property ∧ StandsAt t (line + newlinesBefore d.offset (text w)) (d.traced w) := by
  obtain ⟨⟨before, after, hbody, hoffset⟩, hne⟩ := mem_ofBody hd
  obtain ⟨front, c, rfl, hfront, hc⟩ := List.map_eq_append_iff.1 hbody
  obtain ⟨a, b, rfl, ha, hb⟩ := List.map_eq_append_iff.1 hfront
  have hsize : d.offset = byteSize (text a) := by rw [← hoffset, ← ha, text]
  have hdrop : dropBytes d.offset (a ++ b ++ c) = b ++ c := by rw [hsize, List.append_assoc, dropBytes_append]
  have htraced : d.traced (a ++ b ++ c) = b := by
    have hlength : d.property.length = b.length := by rw [← hb, List.length_map]
    rw [traced, hdrop, hlength, List.take_left]
  have hlines : newlinesBefore d.offset (text (a ++ b ++ c)) = newlines (text a) := by
    rw [hsize, List.append_assoc, text_append, newlinesBefore_append]
  rw [htraced, hlines]
  refine ⟨hb, h.within.standsAt ?_⟩
  rintro rfl
  exact hne hb.symm

end Declaration

/-! ## Names in selectors -/

namespace Selector.Names

/-- whether a name of this category is found in selectors -/
def isNamed (c : Category) : Bool := c = .className || c = .id

/-- what is being read and what was found are classes and ids -/
structure Named (s : St) : Prop where
  place : ∀ {k seen}, s.place = .name k seen → isNamed k = true
  found : ∀ p ∈ s.found, isNamed p.1 = true

theorem named_enter {c : Char} {k : Category} {seen : Text} (h : enter c = .name k seen) : isNamed k = true := by
  unfold enter at h
  split_ifs at h <;> cases h <;> rfl

theorem named_close {k : Category} {seen : Text} {found : List (Category × Text)} (hk : isNamed k = true)
    (h : ∀ p ∈ found, isNamed p.1 = true) : ∀ p ∈ close k seen found, isNamed p.1 = true := by
  unfold close
  split
  · exact List.forall_mem_cons.2 ⟨hk, h⟩
  · exact h

/-- **One character leads to classes and ids only.** -/
theorem named_step {s : St} (h : Named s) (c : Char) : Named (step s c) := by
  obtain ⟨hplace, hfound⟩ := h
  unfold step
  split
  · exact ⟨named_enter, hfound⟩
  · rename_i k seen hp
    split
    · exact ⟨(fun h => by cases h; exact hplace hp), hfound⟩
    · exact ⟨named_enter, named_close (hplace hp) hfound⟩
  · refine ⟨fun h => ?_, hfound⟩
    simp only at h
    split_ifs at h
  · rename_i b _
    exact ⟨(fun h => by cases b <;> cases h), hfound⟩
  · rename_i b _ _
    refine ⟨fun h => ?_, hfound⟩
    simp only at h
    split_ifs at h
    cases b <;> cases h
  · exact ⟨nofun, hfound⟩

/-- **So does every selector.** -/
theorem named_run {s : St} (h : Named s) (t : Text) : Named (t.foldl step s) := by
  induction t generalizing s with
  | nil => exact h
  | cons c t ih => exact ih (named_step h c)

theorem isNamed_of_mem_names {selector : Text} {p : Category × Text} (h : p ∈ names selector) :
    isNamed p.1 = true := by
  have hstart : Named ⟨.outside, []⟩ := ⟨nofun, by simp⟩
  obtain ⟨hplace, hfound⟩ := named_run hstart selector
  unfold names St.finish at h
  split at h
  · rename_i k seen hp
    exact named_close (hplace hp) hfound p (List.mem_reverse.1 h)
  · exact hfound p (List.mem_reverse.1 h)

end Selector.Names

/-! ## Rules -/

/-- a part of `t` is what a custom property or a use of an animation was read off, and its line is there: the custom
property itself, or the property of the declaration in the context -/
structure Occurrence.LocatedAt (t : Text) (o : Occurrence) (y : Trace) : Prop where
  property : o.category = .property → text y = o.name ∧ StandsAt t o.line y
  animation : o.category = .animation → (∃ value, o.context = text y ++ [':', ' '] ++ value) ∧ StandsAt t o.line y

/-- `sites` are the occurrences `os`, each with the part of `t` that it was read off -/
structure Sites (t : Text) (os : List Occurrence) (sites : List (Occurrence × Trace)) : Prop where
  all : sites.map Prod.fst = os
  located : ∀ p ∈ sites, p.1.LocatedAt t p.2

namespace Sites

variable {t : Text} {os os' : List Occurrence} {sites sites' : List (Occurrence × Trace)}

theorem append (h : Sites t os sites) (h' : Sites t os' sites') : Sites t (os ++ os') (sites ++ sites') :=
  ⟨by rw [List.map_append, h.all, h'.all], List.forall_mem_append.2 ⟨h.located, h'.located⟩⟩

theorem of_forall₂ {ys : List Trace} (h : List.Forall₂ (Occurrence.LocatedAt t) os ys) : Sites t os (os.zip ys) := by
  obtain ⟨hlength, hmem⟩ := List.forall₂_iff_zip.1 h
  exact ⟨List.map_fst_zip hlength.le, fun p hp => hmem hp⟩

/-- what is found in selectors is not in a body -/
theorem of_selector (hos : ∀ o ∈ os, o.category ≠ .property ∧ o.category ≠ .animation) :
    Sites t os (os.map fun o => (o, [])) := by
  refine ⟨by simp [Function.comp_def], fun p hp => ?_⟩
  obtain ⟨o, ho, rfl⟩ := List.mem_map.1 hp
  obtain ⟨hproperty, hanimation⟩ := hos o ho
  exact ⟨fun hc => absurd hc hproperty, fun hc => absurd hc hanimation⟩

/-- what several rules hold -/
theorem flatMap {placed : List (Rule × Trace)} {f : Rule → List Occurrence}
    {g : Rule × Trace → List (Occurrence × Trace)} (h : ∀ p ∈ placed, Sites t (f p.1) (g p)) :
    Sites t ((placed.map Prod.fst).flatMap f) (placed.flatMap g) := by
  induction placed with
  | nil => exact ⟨rfl, by simp⟩
  | cons p placed ih =>
    obtain ⟨hp, hplaced⟩ := List.forall_mem_cons.1 h
    exact hp.append (ih hplaced)

end Sites

namespace Rule

/-- the custom properties of a rule whose body is `x`, each with the part of `x` that it is -/
def sitedProperties (r : Rule) (x : Trace) : List (Occurrence × Trace) :=
  r.properties.zip ((IdentRun.traced [] x).filter fun y => Declaration.isCustom (text y))

/-- the animations that a rule whose body is `x` uses, each with the part of `x` that is the property -/
def sitedAnimations (extra : List Text) (r : Rule) (x : Trace) : List (Occurrence × Trace) :=
  (r.animations extra).zip ((Declaration.ofBody r.body).filterMap fun d =>
    if Animation.isProperty d.property then (Animation.named? extra d.value).map fun _ => d.traced x else none)

/-- every identifier that a rule whose body is `x` holds, in extraction order; of what is found in selectors, the part
is left out -/
def sited (config : ParseConfig) (extra : List Text) (r : Rule) (x : Trace) : List (Occurrence × Trace) :=
  if r.kind = .keyframes then (r.keyframe.map fun o => (o, [])) ++ r.sitedProperties x
  else if r.isGroup then
    (Stylesheet.placed config r.source r.bodyLine r.body x).attach.flatMap fun ⟨p, _⟩ => sited config extra p.1 p.2
  else (r.selectorNames.map fun o => (o, [])) ++ r.sitedProperties x ++ r.sitedAnimations extra x
termination_by byteSize r.body
decreasing_by
  have hrule : p.1 ∈ (Stylesheet.parseBody config r).rules := (List.of_mem_zip ‹_›).1
  exact Stylesheet.nested_body_lt hrule

theorem sited_eq (config : ParseConfig) (extra : List Text) (r : Rule) (x : Trace) :
    r.sited config extra x =
      if r.kind = .keyframes then (r.keyframe.map fun o => (o, [])) ++ r.sitedProperties x
      else if r.isGroup then
        (Stylesheet.placed config r.source r.bodyLine r.body x).flatMap fun p => p.1.sited config extra p.2
      else (r.selectorNames.map fun o => (o, [])) ++ r.sitedProperties x ++ r.sitedAnimations extra x := by
  rw [sited, List.flatMap_subtype (g := fun p => p.1.sited config extra p.2) fun _ _ => rfl, List.unattach_attach]

variable {t : Text} {r : Rule} {x : Trace} (h : r.TracedBy t x)
include h

/-- **Every custom property of a rule has its run**, and is on its line. -/
theorem sites_properties : Sites t r.properties (r.sitedProperties x) := by
  have hreads : Reads t r.bodyLine (List.reverse [] ++ x) := h.reads
  obtain ⟨found, hfound, htraced⟩ := IdentRun.runs_traced hreads (by simp) []
  have hruns : identRuns r.bodyLine r.body = found := by
    rw [← h.text]
    exact hfound
  refine .of_forall₂ ?_
  unfold properties
  rw [hruns, List.forall₂_map_left_iff]
  refine (List.rel_filter ?_ htraced).imp fun run y hy => ⟨fun _ => ⟨hy.text, hy.stands⟩, nofun⟩
  intro run y hy
  simp only [hy.text]

/-- **Every animation of a rule has its declaration**, and is on the line of the property. -/
theorem sites_animations (extra : List Text) : Sites t (r.animations extra) (r.sitedAnimations extra x) := by
  have hsame : List.Forall₂ (fun d d' => d = d' ∧ d ∈ Declaration.ofBody r.body) (Declaration.ofBody r.body)
      (Declaration.ofBody r.body) := List.forall₂_same.2 fun d hd => ⟨rfl, hd⟩
  refine .of_forall₂ (List.rel_filterMap ?_ hsame)
  rintro d _ ⟨rfl, hd⟩
  rw [← h.text] at hd
  obtain ⟨htext, hstands⟩ := Declaration.traced_spec h.reads hd
  rw [h.text] at hstands
  simp only
  split
  · cases Animation.named? extra d.value with
    | none => exact .none
    | some name => exact .some ⟨nofun, fun _ => ⟨⟨d.value, by rw [htext]⟩, hstands⟩⟩
  · exact .none

omit h in
theorem category_of_keyframe {o : Occurrence} (ho : o ∈ r.keyframe) : o.category = .keyframe := by
  obtain ⟨name, -, rfl⟩ := List.mem_map.1 ho
  rfl

omit h in
theorem category_of_selectorNames {o : Occurrence} (ho : o ∈ r.selectorNames) :
    Selector.Names.isNamed o.category = true := by
  unfold selectorNames at ho
  split at ho
  · cases ho
  · obtain ⟨p, hp, rfl⟩ := List.mem_map.1 ho
    exact Selector.Names.isNamed_of_mem_names hp

/-- **What a rule holds, and where**, however deep. -/
theorem sites_identifiers (config : ParseConfig) (extra : List Text) :
    Sites t (r.identifiers config extra) (r.sited config extra x) := by
  induction hsize : byteSize r.body using Nat.strong_induction_on generalizing r x with
  | _ n ih =>
    subst hsize
    rw [identifiers_eq, sited_eq]
    split
    · refine Sites.append (.of_selector fun o ho => ?_) (sites_properties h)
      rw [category_of_keyframe ho]
      exact ⟨nofun, nofun⟩
    split
    · have hrules : (Stylesheet.placed config r.source r.bodyLine r.body x).map Prod.fst =
          (Stylesheet.parseBody config r).rules := Stylesheet.rules_placed h.reads h.text
      rw [← hrules]
      refine .flatMap fun p hp => ?_
      have hrule : p.1 ∈ (Stylesheet.parseBody config r).rules := (List.of_mem_zip hp).1
      exact ih _ (Stylesheet.nested_body_lt hrule) (Stylesheet.traced_of_mem_placed h.reads h.text hp) rfl
    · refine Sites.append (Sites.append (.of_selector fun o ho => ?_) (sites_properties h)) (sites_animations h extra)
      have hnamed := category_of_selectorNames ho
      constructor <;> intro hc <;> rw [hc] at hnamed <;> cases hnamed

end Rule

namespace Stylesheet

/-- every identifier that is extracted from a text, in extraction order, each with the part of the text it was read off;
`inner` is the configuration of the blocks parsed again -/
def sited (config inner : ParseConfig) (extra : List Text) (source : SourceId) (t : Text) : List (Occurrence × Trace) :=
  (placed config source 1 t (ofText t)).flatMap fun p => p.1.sited inner extra p.2

/-- **Lines are exact through comments and nesting.** The body of every rule that a text leads to, however deep, is a
part of the text whose first character stands on the line that the rule has for its body. And every occurrence extracted
has the part of the text that it was read off: a custom property is that part, and its line is the line where the part
begins; an animation was read off a declaration whose property is that part, and its line is the line where the property
begins. -/
theorem lines_exact (config inner : ParseConfig) (extra : List Text) (source : SourceId) (t : Text) :
    (∀ r, (parse config source t).Reaches inner r → ∃ x, Located config inner source t r x) ∧
    (∀ r x, Located config inner source t r x →
      (parse config source t).Reaches inner r ∧ text x = r.body ∧ StandsAt t r.bodyLine x) ∧
    Sites t ((parse config source t).identifiers inner extra).occurrences (sited config inner extra source t) := by
  refine ⟨fun r => located_of_reaches, fun r x h => ?_, ?_⟩
  · have htraced := traced_of_located h
    exact ⟨reaches_of_located h, htraced.text, htraced.reads.standsAt htraced.visible⟩
  · have hrules : (placed config source 1 t (ofText t)).map Prod.fst = (parse config source t).rules :=
      rules_placed (reads_ofText t) (text_ofText t)
    unfold identifiers
    rw [IdentifierSet.occurrences_ofOccurrences, ← hrules]
    exact .flatMap fun p hp =>
      Rule.sites_identifiers (traced_of_mem_placed (reads_ofText t) (text_ofText t) hp) inner extra

/-- a comment over two lines, a group, and a rule in it with a comment, an escaped line feed and two more lines -/
def nestedText : Text :=
  "/*\n*/@media a\x7b\n.b\x7b/* \x7d\n*/ c: d\\\n; --e: f;\n animation: g 1s\x7d\x7d".toList

/-- the group -/
def nestedGroup : Rule where
  selector := "@media a".toList
  body := ".b\x7b\n c: d\\\n; --e: f;\n animation: g 1s\x7d".toList
  source := ⟨0⟩
  position := 0
  kind := .media
  line := 2
  bodyLine := 3

/-- the rule inside it -/
def nestedRule : Rule where
  selector := ".b".toList
  body := "c: d\\\n; --e: f;\n animation: g 1s".toList
  source := ⟨0⟩
  position := 0
  kind := .plain
  line := 3
  bodyLine := 4

theorem lines_exact_nested :
    let s := parse {} ⟨0⟩ nestedText
    s.Reaches {} nestedRule ∧ (∃ x, text x = nestedRule.body ∧ StandsAt nestedText 4 x) ∧
    (s.identifiers {} []).occurrences =
      [⟨.className, ['b'], ⟨0⟩, 3, ".b".toList⟩, ⟨.property, "--e".toList, ⟨0⟩, 5, ".b".toList⟩,
        ⟨.animation, ['g'], ⟨0⟩, 6, "animation: g 1s".toList⟩] ∧
    Sites nestedText (s.identifiers {} []).occurrences (sited {} {} [] ⟨0⟩ nestedText) := by
  intro s
  have hgroup : s.rules = [nestedGroup] := by decide +kernel
  have hrule : (parseBody {} nestedGroup).rules = [nestedRule] := by decide +kernel
  have hreaches : s.Reaches {} nestedRule := .inner (.rule (hgroup ▸ List.mem_singleton_self _)) (by simp [hrule])
  obtain ⟨hlocated, hbodies, hsites⟩ := lines_exact {} {} [] ⟨0⟩ nestedText
  obtain ⟨x, hx⟩ := hlocated nestedRule hreaches
  refine ⟨hreaches, ⟨x, (hbodies nestedRule x hx).2⟩, ?_, hsites⟩
  unfold identifiers
  rw [IdentifierSet.occurrences_ofOccurrences, hgroup, List.flatMap_singleton, Rule.identifiers_eq,
    if_neg (by decide), if_pos (by decide), hrule, List.flatMap_singleton, Rule.identifiers_eq,
    if_neg (by decide), if_neg (by decide)]
  decide +kernel

end Stylesheet

end StyleCheck
