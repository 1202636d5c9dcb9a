/-
What a script records.

Every occurrence of a script comes from a match of a pattern, and says truly where. The patterns of the catalog are
such that reading once finds the leftmost matches; a check on the pieces decides it (`isDetermined`). What a match
records is a clean name, on the line where its first capture begins.
- `determined_catalog`: no pattern of the catalog has to go back, and none matches at the end of a text;
- `captures_of_mem_ways`: a match captures one text for each piece that captures;
- `clean_of_mem_recorded`: what a match records is a class, an id or a custom property with a clean name;
- `recorded_of_interpolated`: a list of classes or a selector that is computed records nothing;
- `exists_found`, `scan_records`: the occurrences of a script, match by match.
-/
import StyleCheck.Proofs.Identifier.Lines
import StyleCheck.Proofs.Script.Matching
import StyleCheck.Proofs.Text.Classes
import StyleCheck.Script.Scan

namespace StyleCheck.Script

open Text

/-! ## A check on patterns -/

/-- the characters that a match can begin with, if they can be listed -/
def opening? : List Piece → Option (List Char)
  | .literal (c :: _) :: _ => some [c]
  | .choice ts :: _ | .word ts :: _ => if ts.any (·.isEmpty) then none else some (ts.filterMap (·.head?))
  | .oneOf cs :: _ => some cs
  | .optional c :: ps => (opening? ps).map (c :: ·)
  | .property :: _ => some ['-']
  | _ => none

/-- a choice begins with the first character of one of its texts -/
theorem mem_heads {ts : List Text} {cs : List Char} {o : Option Char} {nothing : Bool}
    (h : (if ts.any (·.isEmpty) then none else some (ts.filterMap (·.head?))) = some cs)
    (hstarts : (o.isSome && ts.any (·.head? == o) || ts.any (·.isEmpty) && nothing) = true) : ∃ c ∈ cs, o = some c := by
  split at h
  · cases h
  · rename_i hempty
    cases h
    rw [Bool.not_eq_true] at hempty
    rw [hempty, Bool.false_and, Bool.or_false, Bool.and_eq_true, List.any_eq_true] at hstarts
    obtain ⟨hsome, u, hu, hhead⟩ := hstarts
    obtain ⟨c, rfl⟩ := Option.isSome_iff_exists.1 hsome
    exact ⟨c, List.mem_filterMap.2 ⟨u, hu, eq_of_beq hhead⟩, rfl⟩

theorem mem_of_opening? {ps : List Piece} {cs : List Char} (h : opening? ps = some cs) {o : Option Char}
    (hstarts : starts ps o = true) : ∃ c ∈ cs, o = some c := by
  induction ps generalizing cs with
  | nil => cases h
  | cons p ps ih =>
    rw [starts] at hstarts
    cases p with
    | literal u =>
      cases u with
      | nil => cases h
      | cons c u =>
        cases h
        rw [Piece.silent, List.isEmpty_cons, Bool.false_and, Bool.or_false, Piece.first, Bool.and_eq_true] at hstarts
        exact ⟨c, List.mem_singleton_self c, (eq_of_beq hstarts.2).symm⟩
    | choice ts => exact mem_heads h hstarts
    | word ts => exact mem_heads h hstarts
    | oneOf cs =>
      cases h
      rw [Piece.silent, Bool.false_and, Bool.or_false, Piece.first, Option.any_eq_true] at hstarts
      obtain ⟨c, rfl, hc⟩ := hstarts
      exact ⟨c, of_decide_eq_true hc, rfl⟩
    | optional c =>
      obtain ⟨cs, hcs, rfl⟩ := Option.map_eq_some_iff.1 h
      rcases Bool.or_eq_true_iff.1 hstarts with hfirst | hrest
      · exact ⟨c, List.mem_cons_self, eq_of_beq hfirst⟩
      · obtain ⟨d, hd, rfl⟩ := ih hcs (Bool.and_eq_true_iff.1 hrest).2
        exact ⟨d, List.mem_cons_of_mem _ hd, rfl⟩
    | property =>
      cases h
      rw [Piece.silent, Bool.false_and, Bool.or_false, Piece.first] at hstarts
      exact ⟨'-', List.mem_singleton_self _, eq_of_beq hstarts⟩
    | wordStart | blank | blanks | upTo stops => cases h

/-- whether the characters that a piece leaves over cannot begin what follows it; where these are many, what follows
begins with one of a few others -/
def Piece.isFit (ps : List Piece) : Piece → Bool
  | .literal _ | .blank | .oneOf _ => true
  | .wordStart => (opening? ps).any (·.all isWordChar)
  | .choice ts | .word ts => decide (ts.Pairwise fun u v => ¬u <+: v) && (overhangs ts).all fun c => !starts ps (some c)
  | .optional d => !starts ps (some d)
  | p => ps.isEmpty || (opening? ps).any (·.all (!p.leaves ·))

def isDetermined : List Piece → Bool
  | [] => true
  | p :: ps => p.isFit ps && isDetermined ps

theorem fits_of_isFit {p : Piece} {ps : List Piece} (h : p.isFit ps = true) : p.Fits ps := by
  have hchoice {ts : List Text}
      (h : (decide (ts.Pairwise fun u v => ¬u <+: v) && (overhangs ts).all fun c => !starts ps (some c)) = true) :
      (ts.Pairwise fun u v => ¬u <+: v) ∧ ∀ c, decide (c ∈ overhangs ts) = true → starts ps (some c) = false := by
    obtain ⟨hordered, hnext⟩ := Bool.and_eq_true_iff.1 h
    refine ⟨of_decide_eq_true hordered, ?_⟩
    intro c hc
    rw [← Bool.not_eq_true']
    exact List.all_eq_true.1 hnext c (of_decide_eq_true hc)
  have hrepeat {p : Piece} (h : (ps.isEmpty || (opening? ps).any (·.all (!p.leaves ·))) = true) :
      ps = [] ∨ ∀ c, p.leaves c = true → starts ps (some c) = false := by
    rcases Bool.or_eq_true_iff.1 h with hend | hopening
    · exact Or.inl (List.isEmpty_iff.1 hend)
    · obtain ⟨cs, hcs, hall⟩ := (Option.any_eq_true _ _).1 hopening
      refine Or.inr ?_
      intro c hc
      rw [← Bool.not_eq_true]
      intro hstarts
      obtain ⟨d, hd, heq⟩ := mem_of_opening? hcs hstarts
      cases heq
      have hleaves := List.all_eq_true.1 hall c hd
      rw [hc] at hleaves
      cases hleaves
  cases p with
  | literal u => exact ⟨trivial, Or.inr nofun, nofun⟩
  | blank => exact ⟨trivial, Or.inr nofun, nofun⟩
  | oneOf cs => exact ⟨trivial, Or.inr nofun, nofun⟩
  | wordStart =>
    obtain ⟨cs, hcs, hall⟩ := (Option.any_eq_true _ _).1 h
    refine ⟨trivial, Or.inr nofun, ?_⟩
    intro _ o hstarts
    obtain ⟨c, hc, rfl⟩ := mem_of_opening? hcs hstarts
    exact List.all_eq_true.1 hall c hc
  | choice ts => exact ⟨(hchoice h).1, Or.inr (hchoice h).2, nofun⟩
  | word ts => exact ⟨(hchoice h).1, Or.inr (hchoice h).2, nofun⟩
  | optional d =>
    refine ⟨trivial, Or.inr ?_, nofun⟩
    intro c hc
    cases eq_of_beq hc
    rw [← Bool.not_eq_true']
    exact h
  | blanks => exact ⟨trivial, hrepeat h, nofun⟩
  | upTo stops => exact ⟨trivial, hrepeat h, nofun⟩
  | property => exact ⟨trivial, hrepeat h, nofun⟩

/-- **The check is sound.** -/
theorem determined_of_isDetermined {ps : List Piece} (h : isDetermined ps = true) : Determined ps := by
  induction ps with
  | nil => trivial
  | cons p ps ih =>
    obtain ⟨hp, hps⟩ := Bool.and_eq_true_iff.1 h
    exact ⟨fits_of_isFit hp, ih hps⟩

/-- **No pattern of the catalog has to go back**, and none matches at the end of a text. -/
theorem determined_catalog {e : Entry} (he : e ∈ catalog) : Determined e.pieces ∧ starts e.pieces none = false := by
  have hall : catalog.all (fun e => isDetermined e.pieces && !starts e.pieces none) = true := by decide +kernel
  obtain ⟨hdetermined, hend⟩ := Bool.and_eq_true_iff.1 (List.all_eq_true.1 hall e he)
  rw [Bool.not_eq_true'] at hend
  exact ⟨determined_of_isDetermined hdetermined, hend⟩

/-! ## Captures -/

/-- what a piece can capture -/
def Piece.Captures (p : Piece) (g : Group) : Prop := ∃ last t rest, (g.text, rest) ∈ p.ways last t

/-- **A match captures one text for each piece that captures.** -/
theorem captures_of_mem_ways {ps : List Piece} {s e : Spot} {groups : List Group} (h : (groups, e) ∈ ways ps s) :
    List.Forall₂ Piece.Captures (ps.filter Piece.isCapture) groups := by
  induction ps generalizing s groups with
  | nil =>
    obtain ⟨rfl, -⟩ := Prod.mk.inj (List.mem_singleton.1 h)
    exact .nil
  | cons p ps ih =>
    obtain ⟨⟨read, rest⟩, hw, h⟩ := List.mem_flatMap.1 h
    obtain ⟨⟨more, e'⟩, hmem, heq⟩ := List.mem_map.1 h
    obtain ⟨rfl, rfl⟩ := Prod.mk.inj heq
    by_cases hp : p.isCapture = true
    · rw [List.filter_cons_of_pos hp, if_pos hp]
      exact .cons ⟨_, _, _, hw⟩ (ih hmem)
    · rw [List.filter_cons_of_neg hp, if_neg hp]
      exact ih hmem

/-- every pattern captures, and one that looks for custom properties captures just that -/
theorem captures_catalog {e : Entry} (he : e ∈ catalog) :
    e.pieces.filter Piece.isCapture ≠ [] ∧
      (e.meaning = .property → e.pieces.filter Piece.isCapture = [.property]) := by
  have hall : catalog.all (fun e => decide (e.pieces.filter Piece.isCapture ≠ [] ∧
      (e.meaning = .property → e.pieces.filter Piece.isCapture = [.property]))) = true := by decide +kernel
  exact of_decide_eq_true (List.all_eq_true.1 hall e he)

/-! ## Occurrences -/

/-- an occurrence in a script has a clean name, and one of a custom property two dashes in front -/
structure Clean (o : Occurrence) : Prop where
  category : o.category = .className ∨ o.category = .id ∨ o.category = .property
  name : isName o.name = true
  property : o.category = .property → ['-', '-'] <+: o.name ∧ 2 < o.name.length

/-- what one match of a pattern records -/
def Entry.recorded (e : Entry) (source : SourceId) (m : Match) : List Occurrence :=
  e.record source (m.groups.map Group.captured)

/-- the list of classes or the selector that a match captures -/
def Meaning.listing? : Meaning → List Group → Option Text
  | .classList, g :: _ => some g.text
  | .selector, g :: _ => some g.text
  | .attribute, g :: value :: _ => if g.text = "class".toList then some value.text else none
  | _, _ => none

theorem contains_of_infix {part t : Text} (h : part <:+: t) : contains part t = true := by
  induction t with
  | nil =>
    rw [List.infix_nil.1 h]
    rfl
  | cons c t ih =>
    rw [contains, Bool.or_eq_true]
    rcases List.infix_cons_iff.1 h with hfront | hrest
    · exact Or.inl (List.isPrefixOf_iff_prefix.2 hfront)
    · exact Or.inr (ih hrest)

/-- classes, ids and custom properties are what captures stand for -/
theorem category_of_mem_named {m : Meaning} {first : Text} {others : List Captured} {p : Category × Text}
    (h : p ∈ named m first others) :
    p.1 = .className ∨ p.1 = .id ∨ p.1 = .property ∧ m = .property ∧ p.2 = first := by
  have hclasses {t : Text} (h : p ∈ classList t) : p.1 = .className := by
    unfold classList at h
    split at h
    · cases h
    · obtain ⟨name, -, rfl⟩ := List.mem_map.1 h
      rfl
  match m with
  | .classList => exact Or.inl (hclasses h)
  | .quotedClasses =>
    obtain ⟨cs, -, hmem⟩ := List.mem_flatMap.1 h
    obtain ⟨c, -, rfl⟩ := List.mem_map.1 hmem
    exact Or.inl rfl
  | .selector =>
    rw [named] at h
    split at h
    · cases h
    · have hnamed := Selector.Names.isNamed_of_mem_names h
      rw [Selector.Names.isNamed, Bool.or_eq_true, decide_eq_true_eq, decide_eq_true_eq] at hnamed
      exact hnamed.imp_right Or.inl
  | .id =>
    cases List.mem_singleton.1 h
    exact Or.inr (Or.inl rfl)
  | .attribute =>
    cases others with
    | nil => cases h
    | cons value others =>
      rw [named] at h
      split at h
      · exact Or.inl (hclasses h)
      · cases List.mem_singleton.1 h
        exact Or.inr (Or.inl rfl)
  | .property =>
    cases List.mem_singleton.1 h
    exact Or.inr (Or.inr ⟨rfl, rfl, rfl⟩)

/-- **What a match records** is clean, and stands on the line where its first capture begins. -/
theorem clean_of_mem_recorded {e : Entry} (he : e ∈ catalog) {s stop : Spot} {groups : List Group}
    (hm : (groups, stop) ∈ ways e.pieces s) {source : SourceId} {o : Occurrence}
    (ho : o ∈ e.recorded source ⟨s, groups, stop⟩) :
    Clean o ∧ o.source = source ∧ o.context = e.name ∧
      ∃ g, groups.head? = some g ∧ o.line = newlines g.before + 1 := by
  obtain ⟨-, hproperty⟩ := captures_catalog he
  have hcaptures := captures_of_mem_ways hm
  cases groups with
  | nil => cases ho
  | cons g groups =>
    obtain ⟨p, hp, rfl⟩ := List.mem_map.1 ho
    obtain ⟨hnamed, hname⟩ := List.mem_filter.1 hp
    have hcategory := category_of_mem_named hnamed
    refine ⟨⟨?_, hname, ?_⟩, rfl, rfl, g, rfl, rfl⟩
    · exact hcategory.imp_right (Or.imp_right And.left)
    · intro hp
      obtain ⟨hmeaning, hfirst⟩ : e.meaning = .property ∧ p.2 = g.text := by
        rcases hcategory with h | h | ⟨-, h⟩
        · cases h.symm.trans hp
        · cases h.symm.trans hp
        · exact h
      rw [hproperty hmeaning] at hcaptures
      obtain ⟨⟨last, t, rest, hread⟩, -⟩ := List.forall₂_cons.1 hcaptures
      obtain ⟨name, htext, -, hname⟩ := mem_dashed hread
      have hlength := List.length_pos_of_ne_nil (isName_iff.1 hname).1
      show ['-', '-'] <+: p.2 ∧ 2 < p.2.length
      rw [hfirst, htext]
      exact ⟨⟨name, rfl⟩, by simpa using hlength⟩

theorem isName_dashes {name : Text} (h : isName name = true) : isName ('-' :: '-' :: name) = true := by
  obtain ⟨-, hall⟩ := isName_iff.1 h
  refine isName_iff.2 ⟨List.cons_ne_nil _ _, ?_⟩
  rw [List.forall_mem_cons, List.forall_mem_cons]
  exact ⟨rfl, rfl, hall⟩

/-- a custom property that is captured is recorded -/
theorem recorded_property {e : Entry} (he : e.meaning = .property) {m : Match} {g : Group} (hgroups : m.groups = [g])
    {name : Text} (htext : g.text = '-' :: '-' :: name) (hname : isName name = true) (source : SourceId) :
    e.recorded source m = [⟨.property, '-' :: '-' :: name, source, newlines g.before + 1, e.name⟩] := by
  have hclean := isName_dashes hname
  have hnamed : named e.meaning g.text [] = [(.property, '-' :: '-' :: name)] := by
    rw [he, named, htext]
  rw [Entry.recorded, hgroups, List.map_singleton, Entry.record]
  simp only [Group.captured]
  rw [hnamed]
  simp [hclean]

/-- **A list of classes or a selector that is computed is left out.** -/
theorem recorded_of_interpolated {e : Entry} {source : SourceId} {m : Match} {list : Text}
    (hlist : e.meaning.listing? m.groups = some list) (h : ['$', '{'] <:+: list) : e.recorded source m = [] := by
  have hinterpolated : isInterpolated list = true := contains_of_infix h
  have hclasses : classList list = [] := if_pos hinterpolated
  obtain ⟨name, pieces, meaning⟩ := e
  obtain ⟨start, groups, stop⟩ := m
  have hrecord {g : Group} {groups : List Group} (h : named meaning g.text (groups.map Group.captured) = []) :
      Entry.recorded ⟨name, pieces, meaning⟩ source ⟨start, g :: groups, stop⟩ = [] := by
    show ((named meaning g.text (groups.map Group.captured)).filter _).map _ = []
    rw [h]
    rfl
  match meaning, groups, hlist with
  | .classList, g :: groups, hlist =>
    cases hlist
    exact hrecord hclasses
  | .selector, g :: groups, hlist =>
    cases hlist
    exact hrecord (if_pos hinterpolated)
  | .attribute, g :: value :: groups, hlist =>
    obtain ⟨hclass, htext⟩ := Option.ite_none_right_eq_some.1 hlist
    cases htext
    apply hrecord
    show (if g.text = "class".toList then classList value.text else _) = []
    rw [if_pos hclass, hclasses]

/-- matches found one behind the other record lines in ascending order -/
theorem lines_ascending {e : Entry} (he : e ∈ catalog) {s : Spot} {ms : List Match} (h : Finds e.pieces s ms)
    (source : SourceId) : ((ms.flatMap (e.recorded source)).map (·.line)).Pairwise (· ≤ ·) := by
  have hlines {m : Match} (hm : m ∈ ms) {o : Occurrence} (ho : o ∈ e.recorded source m) :
      ∃ g, m.groups.head? = some g ∧ o.line = newlines g.before + 1 ∧
        m.start.before <+: g.before ∧ g.before <+: m.stop.before := by
    have hmem := List.mem_of_head? (h.preferred hm).1
    obtain ⟨-, -, -, g, hg, hline⟩ := clean_of_mem_recorded he hmem ho
    obtain ⟨hstart, hstop⟩ := (ways_spec hmem).2 g (List.mem_of_head? hg)
    exact ⟨g, hg, hline, hstart, (List.prefix_append _ _).trans hstop⟩
  rw [List.pairwise_map, List.pairwise_flatMap]
  constructor
  · intro m hm
    apply List.pairwise_of_forall_mem_list
    intro o ho o' ho'
    obtain ⟨g, hg, hline, -⟩ := hlines hm ho
    obtain ⟨g', hg', hline', -⟩ := hlines hm ho'
    cases hg.symm.trans hg'
    rw [hline, hline']
  · apply h.ordered.imp_of_mem
    intro m m' hm hm' hbehind o ho o' ho'
    obtain ⟨g, -, hline, -, hstop⟩ := hlines hm ho
    obtain ⟨g', -, hline', hstart, -⟩ := hlines hm' ho'
    have hbefore : newlines g.before ≤ newlines g'.before :=
      ((hstop.trans hbehind).trans hstart).sublist.count_le '\n'
    rw [hline, hline']
    exact Nat.succ_le_succ hbefore

/-- **What a script records, it records match by match**, pattern by pattern. -/
theorem exists_found (source : SourceId) (t : Text) :
    ∃ found : Entry → List Match,
      (∀ e ∈ catalog, ∀ ms, Finds e.pieces ⟨[], t⟩ ms ↔ ms = found e) ∧
      (scan source t).occurrences = catalog.flatMap fun e => (found e).flatMap (e.recorded source) := by
  have hsearch (e : Entry) : ∃ found, e ∈ catalog → (∀ ms, Finds e.pieces ⟨[], t⟩ ms ↔ ms = found) ∧
      search e.pieces t = found.map fun m => m.groups.map Group.captured := by
    by_cases he : e ∈ catalog
    · obtain ⟨hdetermined, hend⟩ := determined_catalog he
      obtain ⟨found, hfound⟩ := exists_search hdetermined hend t
      exact ⟨found, fun _ => hfound⟩
    · exact ⟨[], fun h => absurd h he⟩
  choose found hfound using hsearch
  refine ⟨found, fun e he => (hfound e he).1, ?_⟩
  rw [scan, IdentifierSet.occurrences_ofOccurrences]
  apply List.flatMap_congr
  intro e he
  rw [(hfound e he).2, List.flatMap_map]
  rfl

/-- what one pattern records can be told from what the others record -/
theorem filter_context {es : List Entry} (hes : (es.map Entry.name).Nodup) {recorded : Entry → List Occurrence}
    (h : ∀ e ∈ es, ∀ o ∈ recorded e, o.context = e.name) {e : Entry} (he : e ∈ es) :
    (es.flatMap recorded).filter (·.context = e.name) = recorded e := by
  induction es with
  | nil => cases he
  | cons first es ih =>
    obtain ⟨hfirst, hes⟩ := List.nodup_cons.1 hes
    obtain ⟨hself, hrest⟩ := List.forall_mem_cons.1 h
    rw [List.flatMap_cons, List.filter_append]
    rcases List.mem_cons.1 he with rfl | he
    · have hothers : (es.flatMap recorded).filter (·.context = e.name) = [] := by
        rw [List.filter_eq_nil_iff]
        intro o ho hcontext
        obtain ⟨e', he', ho⟩ := List.mem_flatMap.1 ho
        apply hfirst
        rw [← of_decide_eq_true hcontext, hrest e' he' o ho]
        exact List.mem_map_of_mem he'
      rw [hothers, List.append_nil, List.filter_eq_self]
      intro o ho
      exact decide_eq_true (hself o ho)
    · have hnone : (recorded first).filter (·.context = e.name) = [] := by
        rw [List.filter_eq_nil_iff]
        intro o ho hcontext
        apply hfirst
        rw [← hself o ho, of_decide_eq_true hcontext]
        exact List.mem_map_of_mem he
      rw [hnone, List.nil_append, ih hes hrest he]

/-- the matches of a pattern, and what they record, in one list each -/
theorem exists_recorded {e : Entry} (he : e ∈ catalog) (source : SourceId) (t : Text) :
    ∃ found : List Match, (∀ ms, Finds e.pieces ⟨[], t⟩ ms ↔ ms = found) ∧
      (scan source t).occurrences.filter (·.context = e.name) = found.flatMap (e.recorded source) := by
  obtain ⟨found, hfound, hscan⟩ := exists_found source t
  refine ⟨found e, hfound e he, ?_⟩
  rw [hscan]
  refine filter_context (by decide) ?_ he
  intro e' he' o ho
  obtain ⟨m, hm, ho⟩ := List.mem_flatMap.1 ho
  obtain ⟨hpreferred, -⟩ := ((hfound e' he' _).2 rfl).preferred hm
  exact (clean_of_mem_recorded he' (List.mem_of_head? hpreferred) ho).2.2.1

/-- **A script records clean names, each where it stands.** For each pattern there is one list of leftmost matches;
pattern by pattern and match by match these record every occurrence there is, in this order. An occurrence names its
pattern and stands on the line where the first capture of its match begins, and the lines of one pattern ascend.
Lists of classes and selectors that are computed record nothing. -/
theorem scan_records (source : SourceId) (t : Text) :
    ∃ found : Entry → List Match,
      (∀ e ∈ catalog, ∀ ms, Finds e.pieces ⟨[], t⟩ ms ↔ ms = found e) ∧
      (scan source t).occurrences = catalog.flatMap (fun e => (found e).flatMap (e.recorded source)) ∧
      ∀ e ∈ catalog,
        (∀ m ∈ found e, ∀ o ∈ e.recorded source m,
          Clean o ∧ o.source = source ∧ o.context = e.name ∧
            ∃ g, m.groups.head? = some g ∧ o.line = newlines g.before + 1) ∧
        (((found e).flatMap (e.recorded source)).map (·.line)).Pairwise (· ≤ ·) ∧
        ∀ m ∈ found e, ∀ list, e.meaning.listing? m.groups = some list → ['$', '{'] <:+: list →
          e.recorded source m = [] := by
  obtain ⟨found, hfound, hscan⟩ := exists_found source t
  refine ⟨found, hfound, hscan, ?_⟩
  intro e he
  have hfinds : Finds e.pieces ⟨[], t⟩ (found e) := (hfound e he _).2 rfl
  refine ⟨?_, lines_ascending he hfinds source, ?_⟩
  · intro m hm o ho
    obtain ⟨hpreferred, -⟩ := hfinds.preferred hm
    exact clean_of_mem_recorded he (List.mem_of_head? hpreferred) ho
  · intro m _ list hlist h
    exact recorded_of_interpolated hlist h

end StyleCheck.Script
