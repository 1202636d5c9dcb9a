/-
What a comment holds does not matter, but for one thing: whether it holds a line feed.

Of a comment in code nothing is left but its line feeds (`strip_commented`), so two texts that differ inside one
comment are scanned like two texts with different line feeds at one place. Lines, issues and the blanks of bodies have
no part in the selectors; `St.essence` is a scan without them, and by `essence_run` it goes on by itself. So the line
feeds matter only if they stand in a prelude, and to that prelude only: `St.Alike` says that two scans are the same but
for one prelude.
- `alike_step`, `alike_run`: one character keeps this, and so does every text;
- `scan_feeds`: so two texts with different line feeds at one place are scanned alike, and the prelude that may differ
  has these in it;
- `normalize_feeds`: line feeds do not change the normal form of a prelude unless they part two visible characters;
- `parse_commented`: the two texts have the same faults up to lines, counts, selectors, kinds and keyframe names, but
  for the one rule whose selector the comment parts.
-/
import StyleCheck.Proofs.Parse.Removal

namespace StyleCheck

open Quoting Text

/-- the fault, on whichever line it is -/
def Fault.unlined : Fault → Fault
  | .unterminatedBlock _ depth => .unterminatedBlock 0 depth
  | .inputTooLarge size limit => .inputTooLarge size limit

/-- what a rule applies to: its selector with its kind and the keyframes it declares -/
def Rule.essence (r : Rule) : Text × RuleKind × Option Text := (r.selector, r.kind, r.keyframesName?)

namespace Block

/-! ## A scan without lines, issues and the blanks of bodies -/

def essence (b : Block) : Block := ⟨b.prelude, b.body.filter (!isBlank ·), 0, 0⟩

def Place.essence : Place → Place
  | .between => .between
  | .before _ seen => .before 0 seen
  | .within p _ _ d seen => .within p 0 0 d (seen.filter (!isBlank ·))

def St.essence (s : St) : St := ⟨s.quoting, 0, s.place.essence, s.blocks.map Block.essence, [], s.statements⟩

/-- the essence of a body is collected from the essence of what was collected -/
theorem filter_collect (c : Char) (seen : Text) :
    (c :: seen.filter (!isBlank ·)).filter (!isBlank ·) = (c :: seen).filter (!isBlank ·) := by
  rw [List.filter_cons, List.filter_cons, List.filter_filter]
  simp

theorem essence_keep (p : Place) (line line' : Nat) (c : Char) :
    (p.essence.keep line' c).essence = (p.keep line c).essence := by
  cases p with
  | between => by_cases hc : isAsciiBlank c = true <;> simp [Place.keep, Place.essence, hc]
  | before l seen => rfl
  | within p l o d seen => simp only [Place.essence, Place.keep, filter_collect]

theorem essence_blocks (blocks : List Block) :
    (blocks.map Block.essence).map Block.essence = blocks.map Block.essence := by
  have hblock (b : Block) : b.essence.essence = b.essence := by simp [Block.essence]
  simp [Function.comp_def, hblock]

theorem essence_essence (s : St) : s.essence.essence = s.essence := by
  have hplace : s.place.essence.essence = s.place.essence := by cases s.place <;> simp [Place.essence]
  simp only [St.essence, essence_blocks, hplace]

theorem essence_act (s : St) (c : Char) : (act s.essence c).essence = (act s c).essence := by
  have hblocks := essence_blocks s.blocks
  have hkeep := essence_keep s.place s.line 0 c
  rw [act_eq, act_eq, show s.essence.quoting = s.quoting from rfl]
  cases Mark.ofChar? s.quoting c with
  | none => simp only [St.essence, hkeep, hblocks]
  | some m =>
    cases m with
    | opens =>
      cases hp : s.place <;> simp [openBrace, St.essence, Place.essence, hp, hblocks, filter_collect]
    | closes =>
      rcases hp : s.place with _ | ⟨l, seen⟩ | ⟨p, l, o, _ | d, seen⟩ <;>
        simp [closeBrace, St.essence, Place.essence, Block.essence, hp, hblocks, filter_collect]
    | ends =>
      cases hp : s.place <;> simp [semicolon, St.essence, Place.essence, hp, hblocks, filter_collect]
    | cut => simp only [St.essence, hkeep, hblocks]

theorem essence_step (s : St) (c : Char) : (step s.essence c).essence = (step s c).essence := by
  obtain ⟨-, -, hplace, hblocks, -, hstatements⟩ := St.mk.inj (essence_act s c)
  unfold step St.essence
  simp only
  rw [← hplace, ← hblocks, ← hstatements]
  rfl

/-- **What matters to the selectors is found without the rest.** -/
theorem essence_run (s : St) (t : Text) : (run s.essence t).essence = (run s t).essence := by
  induction t generalizing s with
  | nil => exact essence_essence s
  | cons c t ih =>
    rw [run_cons, run_cons, ← ih, essence_step, ih]

/-! ## Two scans with one prelude that differs -/

/-- the same state, but for one prelude that is `p` in the one and `p'` in the other -/
inductive St.Alike (p p' : Text) : St → St → Prop where
  | same (s : St) : St.Alike p p' s s
  | held {q : Quoting} {line n l o d : Nat} {seen : Text} {blocks : List Block} {issues : List Issue} :
      St.Alike p p' ⟨q, line, .within p l o d seen, blocks, issues, n⟩
        ⟨q, line, .within p' l o d seen, blocks, issues, n⟩
  | found (newer : List Block) {q : Quoting} {line n l o : Nat} {place : Place} {body : Text} {older : List Block}
      {issues : List Issue} :
      St.Alike p p' ⟨q, line, place, newer ++ ⟨p, body, l, o⟩ :: older, issues, n⟩
        ⟨q, line, place, newer ++ ⟨p', body, l, o⟩ :: older, issues, n⟩

section
variable {p p' : Text} {s s' : St} (h : s.Alike p p' s')
include h

theorem alike_act (c : Char) : (act s c).Alike p p' (act s' c) := by
  cases h with
  | same s => exact .same _
  | @held q line n l o d seen blocks issues =>
    simp only [act_eq]
    cases Mark.ofChar? q c with
    | none => exact .held
    | some m =>
      cases m with
      | opens => exact .held
      | closes =>
        cases d with
        | zero => exact .found []
        | succ d => exact .held
      | ends => exact .held
      | cut => exact .held
  | @found newer q line n l o place body older issues =>
    obtain ⟨found, hact⟩ := act_found ⟨q, line, place, [], issues, n⟩ c
    rw [hact (newer ++ ⟨p, body, l, o⟩ :: older), hact (newer ++ ⟨p', body, l, o⟩ :: older), ← List.append_assoc,
      ← List.append_assoc]
    exact .found (found ++ newer)

/-- **One character keeps two scans alike.** -/
theorem alike_step (c : Char) : (step s c).Alike p p' (step s' c) := by
  have hq : s'.quoting = s.quoting ∧ s'.line = s.line := by cases h <;> exact ⟨rfl, rfl⟩
  have hact := alike_act h c
  unfold step
  rw [hq.1, hq.2]
  generalize act s c = r at hact ⊢
  generalize act s' c = r' at hact ⊢
  cases hact with
  | same r => exact .same _
  | held => exact .held
  | found newer => exact .found newer

/-- **So does every text.** -/
theorem alike_run (t : Text) : (run s t).Alike p p' (run s' t) := by
  induction t generalizing s s' with
  | nil => exact h
  | cons c t ih => exact ih (alike_step h c)

theorem alike_essence : s.essence.Alike p p' s'.essence := by
  cases h with
  | same s => exact .same _
  | held => exact .held
  | found newer =>
    simp only [St.essence, List.map_append, List.map_cons, Block.essence]
    exact .found _

end

/-- two scans whose essences are alike stay so -/
theorem alike_run_essence {p p' : Text} {s s' : St} (h : s.essence.Alike p p' s'.essence) (t : Text) :
    (run s t).essence.Alike p p' (run s' t).essence := by
  rw [← essence_run s, ← essence_run s']
  exact alike_essence (alike_run h t)

/-- what matters to the selectors is found in the essence -/
theorem finish_essence (s : St) :
    s.essence.finish.blocks = s.finish.blocks.map Block.essence ∧
    s.essence.finish.fault = s.finish.fault.map Fault.unlined ∧ s.essence.finish.statements = s.finish.statements := by
  obtain ⟨q, line, place, blocks, issues, n⟩ := s
  refine ⟨by simp [St.essence, St.finish], ?_, rfl⟩
  cases place <;> rfl

/-- the same was found up to lines, issues and blanks in bodies, but for the prelude of one block -/
structure Found.Alike (p p' : Text) (f f' : Found) : Prop where
  blocks : DifferByOne (fun b b' => b.prelude = p ∧ b'.prelude = p' ∧ b'.body = b.body) (f.blocks.map Block.essence)
    (f'.blocks.map Block.essence)
  fault : f'.fault.map Fault.unlined = f.fault.map Fault.unlined
  statements : f'.statements = f.statements

theorem alike_finish {p p' : Text} {s s' : St} (h : s.essence.Alike p p' s'.essence) :
    s.finish.Alike p p' s'.finish := by
  obtain ⟨hb, hf, hn⟩ := finish_essence s
  obtain ⟨hb', hf', hn'⟩ := finish_essence s'
  generalize s.essence = r at h hb hf hn
  generalize s'.essence = r' at h hb' hf' hn'
  refine ⟨?_, ?_, ?_⟩
  · rw [← hb, ← hb']
    cases h with
    | same r => exact Or.inl rfl
    | held => exact Or.inl rfl
    | found newer => exact DifferByOne.reverse (Or.inr ⟨newer, _, _, _, rfl, rfl, rfl, rfl, rfl⟩)
  · rw [← hf, ← hf']
    cases h <;> rfl
  · rw [← hn, ← hn']
    cases h <;> rfl

/-! ## Blanks at one place -/

/-- the place behind blanks in code; between two blocks they are dropped -/
def Place.spaced (g : Text) : Place → Place
  | .between => .between
  | .before l seen => .before l (g.reverse ++ seen)
  | .within p l o d seen => .within p l o d (g.reverse ++ seen)

theorem run_feeds {s : St} (hs : s.quoting = code) (k : Text) :
    run s (lineFeeds k) =
      { s with line := s.line + newlines (lineFeeds k), place := s.place.spaced (lineFeeds k) } := by
  obtain ⟨q, line, place, blocks, issues, n⟩ := s
  obtain rfl : q = code := hs
  obtain ⟨hrun, hmarks⟩ := run_code_blank (blank_lineFeeds k)
  have hbare : ∀ m ∈ code.marks (lineFeeds k), m = .cut := by simp [hmarks]
  have hcuts : cuts line code (lineFeeds k) = [] := cuts_eq_nil (by simp [hmarks]) line
  cases place with
  | between =>
    have hascii : (lineFeeds k).dropWhile isAsciiBlank = [] := by
      refine List.dropWhile_eq_nil_iff.2 fun c hc => ?_
      rw [(mem_lineFeeds.1 hc).2]
      rfl
    rw [run_prelude line n blocks issues hbare, hrun, hcuts, begun, if_pos hascii]
    rfl
  | before l seen =>
    rw [run_before line n blocks issues hbare, hrun, hcuts]
    rfl
  | within p l o d seen =>
    have hdepth : Mark.depth? d (code.marks (lineFeeds k)) = some d := by
      rw [hmarks]
      rfl
    rw [run_within line n blocks issues hdepth, hrun, hcuts]
    rfl

/-- a text makes no marks but cut literals, or there is a first other mark -/
theorem bare_or_marked (q : Quoting) (t : Text) : (∀ m ∈ q.marks t, m = .cut) ∨
    ∃ y c z m, t = y ++ c :: z ∧ (∀ m ∈ q.marks y, m = .cut) ∧ Mark.ofChar? (q.run y) c = some m ∧ m ≠ .cut := by
  induction t generalizing q with
  | nil => exact Or.inl (by simp)
  | cons c t ih =>
    by_cases hc : ∃ m, Mark.ofChar? q c = some m ∧ m ≠ .cut
    · obtain ⟨m, hm, hne⟩ := hc
      exact Or.inr ⟨[], c, t, m, rfl, by simp, hm, hne⟩
    have hfirst : ∀ m ∈ (Mark.ofChar? q c).toList, m = .cut := by
      intro m hm
      by_contra hne
      exact hc ⟨m, by simpa using hm, hne⟩
    rcases ih (q.next c) with h | ⟨y, d, z, m, rfl, hy, hm, hne⟩
    · exact Or.inl (List.forall_mem_append.2 ⟨hfirst, h⟩)
    · exact Or.inr ⟨c :: y, d, z, m, rfl, List.forall_mem_append.2 ⟨hfirst, hy⟩, hm, hne⟩

/-- blanks in text at depth zero matter to the prelude that this text ends in, if it does -/
theorem before_feeds (seen g g' t : Text) (l n line line' : Nat) (blocks : List Block) (issues issues' : List Issue) :
    ∃ y, y <+: t ∧
      (run ⟨code, line, .before l (g.reverse ++ seen), blocks, issues, n⟩ t).finish.Alike (seen.reverse ++ g ++ y)
        (seen.reverse ++ g' ++ y) (run ⟨code, line', .before l (g'.reverse ++ seen), blocks, issues', n⟩ t).finish := by
  rcases bare_or_marked code t with hbare | ⟨y, c, z, m, rfl, hbare, hm, hne⟩
  · -- no brace comes
    refine ⟨t, List.prefix_rfl, ?_⟩
    rw [run_before _ n blocks _ hbare, run_before _ n blocks _ hbare]
    exact ⟨Or.inl rfl, rfl, rfl⟩
  refine ⟨y, List.prefix_append _ _, ?_⟩
  rw [run_append, run_append, run_before _ n blocks _ hbare, run_before _ n blocks _ hbare, run_cons, run_cons]
  refine alike_finish (alike_run_essence ?_ z)
  unfold step
  rw [act_eq, act_eq, hm]
  cases m with
  | opens =>
    have hprelude (g : Text) : (y.reverse ++ (g.reverse ++ seen)).reverse = seen.reverse ++ g ++ y := by simp
    simp only [openBrace, St.essence, Place.essence, hprelude]
    exact .held
  | closes => exact .same _
  | ends => exact .same _
  | cut => exact absurd rfl hne

/-- **Line feeds at one place in code** matter to one prelude at most, and only if they stand in it. -/
theorem scan_feeds {u : Text} (hu : code.run u = code) (k k' t : Text) : ∃ x y, x <:+ u ∧ y <+: t ∧
    (scan 1 (u ++ lineFeeds k ++ t)).Alike (x ++ lineFeeds k ++ y) (x ++ lineFeeds k' ++ y)
      (scan 1 (u ++ lineFeeds k' ++ t)) := by
  have hholds := holds_run 1 u
  have hcode : (run (start 1) u).quoting = code := hholds.quoting.trans hu
  have hplace := hholds.place
  simp only [scan, run_append, run_feeds hcode]
  generalize run (start 1) u = s at hcode hplace
  obtain ⟨q, line, place, blocks, issues, n⟩ := s
  obtain rfl : q = code := hcode
  cases place with
  | between =>
    refine ⟨[], [], List.nil_suffix, List.nil_prefix, alike_finish (alike_run_essence ?_ t)⟩
    exact .same _
  | before l seen =>
    obtain ⟨before, rfl, -, -⟩ := hplace
    obtain ⟨y, hy, halike⟩ := before_feeds seen (lineFeeds k) (lineFeeds k') t l n _ _ blocks issues issues
    exact ⟨seen.reverse, y, List.suffix_append _ _, hy, halike⟩
  | within p l o d seen =>
    -- what is collected in a body has no blanks in its essence
    have hblank (g : Text) : (lineFeeds g).reverse.filter (!isBlank ·) = [] := by
      refine List.filter_eq_nil_iff.2 fun c hc => ?_
      simp [blank_lineFeeds g c (List.mem_reverse.1 hc)]
    refine ⟨[], [], List.nil_suffix, List.nil_prefix, alike_finish (alike_run_essence ?_ t)⟩
    simp only [St.essence, Place.spaced, Place.essence, List.filter_append, hblank]
    exact .same _

end Block

/-! ## Selectors -/

namespace Selector

/-- the selectors of a prelude in which a comment stands between the last character of `u` and the first one of `v`,
both visible: with nothing in its place, and with a space -/
def Parted (u v joined parted : Text) : Prop :=
  ∃ x c d y, x ++ [c] <:+ u ∧ d :: y <+: v ∧ isBlank c = false ∧ isBlank d = false ∧
    joined = normalize (x ++ c :: d :: y) ∧ parted = normalize (x ++ [c, ' ', d] ++ y)

/-- selectors that differ so, where `k` and `k'` are what that comment holds -/
def PartedBy (u v k k' s s' : Text) : Prop :=
  ('\n' ∉ k ∧ '\n' ∈ k' ∧ Parted u v s s') ∨ ('\n' ∈ k ∧ '\n' ∉ k' ∧ Parted u v s' s)

theorem Parted.visible {u v s s' : Text} (h : Parted u v s s') : s ≠ [] ∧ s' ≠ [] := by
  obtain ⟨x, c, d, y, -, -, hc, -, rfl, rfl⟩ := h
  have hvisible {t : Text} (ht : c ∈ t) : normalize t ≠ [] := fun hnil => by
    have hblank := (retouched_normalize t).blank hnil c ht
    rw [hc] at hblank
    cases hblank
  exact ⟨hvisible (by simp), hvisible (by simp)⟩

theorem PartedBy.visible {u v k k' s s' : Text} (h : PartedBy u v k k' s s') : s ≠ [] ∧ s' ≠ [] := by
  rcases h with ⟨-, -, h⟩ | ⟨-, -, h⟩
  · exact h.visible
  · exact h.visible.symm

theorem words_append_gap (x y : Text) {g : Text} (hg : Blank g) (hne : g ≠ []) :
    words (x ++ g ++ y) = words x ++ words y := by
  obtain ⟨c, g, rfl⟩ := List.exists_cons_of_ne_nil hne
  obtain ⟨hc, hg⟩ := blank_cons.1 hg
  rw [List.append_assoc, List.cons_append, words_append_blank x hc, words_blank_append hg]

/-- the words of two texts are those of each, unless the last character of the one and the first one of the other are
visible -/
theorem words_append (x y : Text) : words (x ++ y) = words x ++ words y ∨
    ∃ x' c d y', x = x' ++ [c] ∧ y = d :: y' ∧ isBlank c = false ∧ isBlank d = false := by
  rcases List.eq_nil_or_concat x with rfl | ⟨x', c, rfl⟩
  · exact Or.inl rfl
  cases y with
  | nil => exact Or.inl (by simp [words])
  | cons d y' =>
    rw [List.concat_eq_append]
    by_cases hc : isBlank c = true
    · refine Or.inl ?_
      rw [words_append_blank x' hc [], List.append_assoc, List.singleton_append, words_append_blank x' hc]
      simp [words]
    by_cases hd : isBlank d = true
    · refine Or.inl ?_
      rw [words_append_blank _ hd, words_cons_blank hd]
    · exact Or.inr ⟨x', c, d, y', rfl, rfl, by simpa using hc, by simpa using hd⟩

/-- **Line feeds do not change the normal form of a prelude**, unless they are the only blanks between two characters,
and only one of two texts has any there. -/
theorem normalize_feeds {u v x y : Text} (hx : x <:+ u) (hy : y <+: v) (k k' : Text) :
    normalize (x ++ lineFeeds k' ++ y) = normalize (x ++ lineFeeds k ++ y) ∨
      PartedBy u v k k' (normalize (x ++ lineFeeds k ++ y)) (normalize (x ++ lineFeeds k' ++ y)) := by
  have hnone {k : Text} (hk : '\n' ∉ k) : x ++ lineFeeds k ++ y = x ++ y := by
    rw [lineFeeds_eq_nil_iff.2 hk, List.append_nil]
  have hsome {k : Text} (hk : '\n' ∈ k) : words (x ++ lineFeeds k ++ y) = words x ++ words y :=
    words_append_gap x y (blank_lineFeeds k) fun h => lineFeeds_eq_nil_iff.1 h hk
  unfold normalize
  rcases words_append x y with hwords | ⟨x', c, d, y', rfl, rfl, hc, hd⟩
  · -- one of the two is no visible character, so it parts the words by itself
    have hall (k : Text) : words (x ++ lineFeeds k ++ y) = words x ++ words y := by
      by_cases hk : '\n' ∈ k
      · exact hsome hk
      · rw [hnone hk, hwords]
    exact Or.inl (by rw [hall k, hall k'])
  have hparted {k k' : Text} (hk : '\n' ∉ k) (hk' : '\n' ∈ k') :
      Parted u v (normalize (x' ++ [c] ++ lineFeeds k ++ d :: y'))
        (normalize (x' ++ [c] ++ lineFeeds k' ++ d :: y')) := by
    refine ⟨x', c, d, y', hx, hy, hc, hd, ?_, ?_⟩
    · rw [hnone hk]
      simp
    · unfold normalize
      rw [hsome hk', ← words_append_gap (x' ++ [c]) (d :: y') (g := [' ']) (by decide) (by simp)]
      simp
  by_cases hk : '\n' ∈ k <;> by_cases hk' : '\n' ∈ k'
  · exact Or.inl (by rw [hsome hk, hsome hk'])
  · exact Or.inr (Or.inr ⟨hk, hk', hparted hk' hk⟩)
  · exact Or.inr (Or.inl ⟨hk, hk', hparted hk hk'⟩)
  · exact Or.inl (by rw [hnone hk, hnone hk'])

end Selector

/-! ## Rules -/

namespace Stylesheet

variable (config : ParseConfig) (source : SourceId)

/-- what the rule of a block applies to depends on the normal form of its prelude and on whether its body is visible -/
theorem essence_toRule? {b b' : Block} (hp : Selector.normalize b'.prelude = Selector.normalize b.prelude)
    (hb : Blank b'.body ↔ Blank b.body) :
    (b'.toRule? config source 0).map Rule.essence = (b.toRule? config source 0).map Rule.essence := by
  have hempty : (trim b'.body).isEmpty = (trim b.body).isEmpty := by
    rw [Bool.eq_iff_iff, List.isEmpty_iff, List.isEmpty_iff, trim_eq_nil_iff, trim_eq_nil_iff, hb]
  unfold Block.toRule?
  simp only [hp, hempty]
  split <;> rfl

/-- what the rules of blocks apply to can be read off their essences -/
theorem essence_rulesOf (blocks : List Block) :
    (rulesOf config source blocks).map Rule.essence =
      (blocks.map Block.essence).filterMap (fun b => (b.toRule? config source 0).map Rule.essence) ∧
    blanks config source blocks =
      (blocks.map Block.essence).countP (fun b => ((b.toRule? config source 0).map Rule.essence).isNone) := by
  have hrule (b : Block) : (b.essence.toRule? config source 0).map Rule.essence =
      (b.toRule? config source 0).map Rule.essence := by
    refine essence_toRule? config source rfl ⟨fun h c hc => ?_, fun h c hc => h c (List.mem_of_mem_filter hc)⟩
    by_contra hn
    exact hn (h c (List.mem_filter.2 ⟨hc, by simpa using hn⟩))
  refine ⟨?_, ?_⟩
  · unfold rulesOf
    rw [List.map_filterMap, List.filterMap_map]
    exact List.filterMap_congr fun b _ => (hrule b).symm
  · unfold blanks
    rw [List.countP_map]
    exact List.countP_congr fun b _ => by rw [Function.comp_apply, hrule, Option.isNone_map]

/-- blocks alike but for one prelude have rules that apply to the same, but for one -/
theorem essences_alike {u v x y k k' : Text} (hx : x <:+ u) (hy : y <+: v) {bs bs' : List Block}
    (h : DifferByOne (fun b b' => b.prelude = x ++ lineFeeds k ++ y ∧ b'.prelude = x ++ lineFeeds k' ++ y ∧
      b'.body = b.body) bs bs') :
    DifferByOne (fun e e' => Selector.PartedBy u v k k' e.1 e'.1)
      (bs.filterMap fun b => (b.toRule? config source 0).map Rule.essence)
      (bs'.filterMap fun b => (b.toRule? config source 0).map Rule.essence) ∧
    bs'.countP (fun b => ((b.toRule? config source 0).map Rule.essence).isNone) =
      bs.countP (fun b => ((b.toRule? config source 0).map Rule.essence).isNone) := by
  rcases h with rfl | ⟨before, after, b, b', rfl, rfl, hp, hp', hbody⟩
  · exact ⟨Or.inl rfl, rfl⟩
  have hnormal := Selector.normalize_feeds hx hy k k'
  rw [← hp, ← hp'] at hnormal
  rcases hnormal with hnormal | hparted
  · have hsame : (b'.toRule? config source 0).map Rule.essence = (b.toRule? config source 0).map Rule.essence :=
      essence_toRule? config source hnormal (by rw [hbody])
    refine ⟨Or.inl ?_, ?_⟩
    · simp only [List.filterMap_append, List.filterMap_cons, hsame]
    · simp only [List.countP_append, List.countP_cons, hsame]
  -- both selectors are visible, so both blocks have a rule if their body is visible
  have hone : DifferByOne (fun a a' => a = b ∧ a' = b') (before ++ b :: after) (before ++ b' :: after) :=
    Or.inr ⟨before, after, b, b', rfl, rfl, rfl, rfl⟩
  obtain ⟨hvisible, hvisible'⟩ := hparted.visible
  by_cases htrim : trim b.body = []
  · have hnone : b.toRule? config source 0 = none := by simp [Block.toRule?, htrim]
    have hnone' : b'.toRule? config source 0 = none := by simp [Block.toRule?, hbody, htrim]
    refine ⟨hone.filterMap _ fun a a' h => Or.inl ?_, hone.countP_eq _ fun a a' h => ?_⟩
    · simp [h.1, h.2, hnone, hnone']
    · simp [h.1, h.2, hnone, hnone']
  · obtain ⟨r, hrule, hselector⟩ : ∃ r, b.toRule? config source 0 = some r ∧
        r.selector = Selector.normalize b.prelude :=
      ⟨_, toRule?_of_visible config source hvisible htrim, rfl⟩
    obtain ⟨r', hrule', hselector'⟩ : ∃ r', b'.toRule? config source 0 = some r' ∧
        r'.selector = Selector.normalize b'.prelude :=
      ⟨_, toRule?_of_visible config source hvisible' (hbody ▸ htrim), rfl⟩
    rw [← hselector, ← hselector'] at hparted
    refine ⟨hone.filterMap _ fun a a' h => Or.inr ⟨r.essence, r'.essence, ?_, ?_, hparted⟩,
      hone.countP_eq _ fun a a' h => ?_⟩
    · rw [h.1, hrule]
      rfl
    · rw [h.2, hrule']
      rfl
    · rw [h.1, h.2, hrule, hrule']
      rfl

/-- **What a comment holds does not matter, but for line feeds between two visible characters of a selector.** Wherever
a comment stands in code, its contents can be exchanged: as many rules, blocks without rule and statements are found,
and the same fault up to its line. If both contents hold a line feed or none does, the rules have the same selectors,
kinds and keyframe names; otherwise all but one have, and this one is that whose selector the comment stands in, without
a blank beside it. -/
theorem parse_commented {u k k' : Text} (hu : (Comment.run (Comment.start 1) u).place.inCode = true) (hk : Unclosed k)
    (hk' : Unclosed k') (v : Text) (hsize : byteSize (u ++ commented k ++ v) ≤ config.maxInputSize)
    (hsize' : byteSize (u ++ commented k' ++ v) ≤ config.maxInputSize) :
    let w := parse config source (u ++ commented k ++ v)
    let w' := parse config source (u ++ commented k' ++ v)
    w'.rules.length = w.rules.length ∧ w'.stats.dropped = w.stats.dropped ∧
    w'.stats.statements = w.stats.statements ∧ w'.fault.map Fault.unlined = w.fault.map Fault.unlined ∧
    (('\n' ∈ k' ↔ '\n' ∈ k) → w'.rules.map Rule.essence = w.rules.map Rule.essence) ∧
    DifferByOne (fun e e' => Selector.PartedBy (Comment.strip u) (Comment.strip v) k k' e.1 e'.1)
      (w.rules.map Rule.essence) (w'.rules.map Rule.essence) := by
  intro w w'
  obtain ⟨hrules, -, hfault, hdropped, hstatements⟩ := parseAt_of_size source 1 hsize
  obtain ⟨hrules', -, hfault', hdropped', hstatements'⟩ := parseAt_of_size source 1 hsize'
  obtain ⟨x, y, hx, hy, hblocks, hf, hn⟩ :=
    Block.scan_feeds (Comment.quoting_of_inCode hu) k k' (Comment.strip v)
  rw [← Comment.strip_commented hk hu, ← Comment.strip_commented hk' hu] at hblocks hf hn
  obtain ⟨hdiffer, hcount⟩ := essences_alike config source hx hy hblocks
  rw [← (essence_rulesOf config source _).1, ← (essence_rulesOf config source _).1] at hdiffer
  rw [← (essence_rulesOf config source _).2, ← (essence_rulesOf config source _).2] at hcount
  have hmap (rules : List Rule) : (numbered 0 rules).map Rule.essence = rules.map Rule.essence :=
    map_numbered Rule.essence (fun _ _ => rfl) 0 rules
  have hdiffer : DifferByOne (fun e e' => Selector.PartedBy (Comment.strip u) (Comment.strip v) k k' e.1 e'.1)
      (w.rules.map Rule.essence) (w'.rules.map Rule.essence) := by
    show DifferByOne _ ((parseAt _ _ _ _).rules.map _) ((parseAt _ _ _ _).rules.map _)
    rw [hrules, hrules', hmap, hmap]
    exact hdiffer
  refine ⟨by simpa using hdiffer.length_eq, hdropped'.trans (hcount.trans hdropped.symm),
    hstatements'.trans (hn.trans hstatements.symm), ?_, fun hboth => ?_, hdiffer⟩
  · exact (congrArg _ hfault').trans (hf.trans (congrArg _ hfault).symm)
  · rcases hdiffer with heq | ⟨before, after, e, e', -, -, ⟨hnot, hmem, -⟩ | ⟨hmem, hnot, -⟩⟩
    · exact heq
    · exact absurd (hboth.1 hmem) hnot
    · exact absurd (hboth.2 hmem) hnot

/-- a statement, a block without body, and the first half of a selector behind another comment -/
def halfText : Text := "@a 'b'; .c \x7b /* d */ \x7d /*\n*/ @keyframes".toList

/-- the other half, and a block that is not closed -/
def restText : Text := "e \x7b to \x7b f: g \x7d \x7d\n.h \x7b i \x7b".toList

/-- what a comment may hold: a slash, a line feed, a brace, a quote and a comment opener -/
def heldText : Text := "/ \n \x7d ' /*".toList

theorem parse_commented_keyframes :
    let w := parse {} ⟨0⟩ (halfText ++ commented ['*'] ++ restText)
    let w' := parse {} ⟨0⟩ (halfText ++ commented heldText ++ restText)
    (Comment.run (Comment.start 1) halfText).place.inCode = true ∧ Unclosed ['*'] ∧ Unclosed heldText ∧
    byteSize (halfText ++ commented ['*'] ++ restText) ≤ ({} : ParseConfig).maxInputSize ∧
    byteSize (halfText ++ commented heldText ++ restText) ≤ ({} : ParseConfig).maxInputSize ∧
    w.rules.map Rule.essence = [("@keyframese".toList, .plain, none)] ∧
    w'.rules.map Rule.essence = [("@keyframes e".toList, .keyframes, some "e".toList)] ∧
    w.fault = some (.unterminatedBlock 3 2) ∧ w'.fault = some (.unterminatedBlock 4 2) ∧
    w'.rules.length = w.rules.length ∧ w'.stats.dropped = w.stats.dropped ∧
    w'.stats.statements = w.stats.statements ∧ w'.fault.map Fault.unlined = w.fault.map Fault.unlined ∧
    (('\n' ∈ heldText ↔ '\n' ∈ ['*']) → w'.rules.map Rule.essence = w.rules.map Rule.essence) ∧
    DifferByOne (fun e e' =>
        Selector.PartedBy (Comment.strip halfText) (Comment.strip restText) ['*'] heldText e.1 e'.1)
      (w.rules.map Rule.essence) (w'.rules.map Rule.essence) := by
  intro w w'
  have hu : (Comment.run (Comment.start 1) halfText).place.inCode = true := by decide +kernel
  have hk : Unclosed ['*'] := by decide +kernel
  have hk' : Unclosed heldText := by decide +kernel
  have hsize : byteSize (halfText ++ commented ['*'] ++ restText) ≤ ({} : ParseConfig).maxInputSize := by
    decide +kernel
  have hsize' : byteSize (halfText ++ commented heldText ++ restText) ≤ ({} : ParseConfig).maxInputSize := by
    decide +kernel
  exact ⟨hu, hk, hk', hsize, hsize', by decide +kernel, by decide +kernel, by decide +kernel, by decide +kernel,
    parse_commented {} ⟨0⟩ hu hk hk' restText hsize hsize'⟩

/-- a line feed in a comment makes one compound selector two -/
theorem parse_commented_parted :
    let u := ".a".toList
    let v := ".b \x7b c: d \x7d".toList
    let w := parse {} ⟨0⟩ (u ++ commented [] ++ v)
    let w' := parse {} ⟨0⟩ (u ++ commented ['\n'] ++ v)
    (Comment.run (Comment.start 1) u).place.inCode = true ∧ Unclosed [] ∧ Unclosed ['\n'] ∧
    byteSize (u ++ commented [] ++ v) ≤ ({} : ParseConfig).maxInputSize ∧
    byteSize (u ++ commented ['\n'] ++ v) ≤ ({} : ParseConfig).maxInputSize ∧
    w.rules.map (·.selector) = [".a.b".toList] ∧ w'.rules.map (·.selector) = [".a .b".toList] := by
  decide +kernel

end Stylesheet

end StyleCheck
