/-
What an address without quotes does to the text around it.

Declarations are split outside parentheses, so that `url(..)` is one value whatever it holds. The passes in front of
that look at no parentheses: an address opens a comment where it holds the characters of an opener, and its braces are
those of a block. So a page that holds an address is read as it is written exactly if the address opens no comment and
its braces are balanced.
- `ofBody_url`: the declaration of an address is one pair;
- `parse_url`: what a page with a harmless address is parsed as;
- `uncommented_of_rules`, `balanced_of_rules`: what a page that is read as written shows about its address;
- `url_opaque_iff`: all of it.
-/
import StyleCheck.Proofs.Parse.Clean
import StyleCheck.Proofs.Parse.Plain
import StyleCheck.Proofs.Parse.Recovery

namespace StyleCheck

open Quoting Text

/-! ## Addresses -/

/-- printable ASCII, but no parenthesis, quote or backslash -/
def Text.isAddressChar (c : Char) : Bool :=
  '!' ≤ c && c ≤ '~' && !isQuote c && c != '\\' && c != '(' && c != ')'

/-- an address as a value -/
def url (u : Text) : Text := "url(".toList ++ u ++ [')']

/-- the declaration of an address -/
def urlBody (u : Text) : Text := "b: url(".toList ++ u ++ ");".toList

/-- a block with the declaration of an address, and another block behind it -/
def urlPage (u : Text) : Text := ".a \x7b b: url(".toList ++ u ++ "); \x7d .c \x7b d: e; \x7d".toList

section
variable {u : Text} (hu : ∀ c ∈ u, isAddressChar c = true)
include hu

theorem address_char {c : Char} (hc : c ∈ u) :
    isQuote c = false ∧ c ≠ '\\' ∧ c ≠ '(' ∧ c ≠ ')' ∧ c ≠ '\n' := by
  have h := hu c hc
  simp only [isAddressChar, Bool.and_eq_true, Bool.not_eq_true', bne_iff_ne, decide_eq_true_eq] at h
  obtain ⟨⟨⟨⟨⟨hlow, -⟩, hquote⟩, hescape⟩, hopen⟩, hclose⟩ := h
  refine ⟨hquote, hescape, hopen, hclose, ?_⟩
  rintro rfl
  exact absurd hlow (by decide)

theorem next_address {c : Char} (hc : c ∈ u) : code.next c = code := by
  obtain ⟨hquote, hescape, -⟩ := address_char hu hc
  simp [next, code, hescape, hquote]

theorem run_address : code.run u = code := by
  induction u with
  | nil => rfl
  | cons c u ih =>
    rw [run_cons, next_address hu List.mem_cons_self]
    exact ih (List.forall_mem_cons.1 hu).2

/-- an address opens a comment where it holds the characters of an opener -/
theorem uncommented_address : code.Uncommented u ↔ ¬['/', '*'] <:+: u := by
  induction u with
  | nil => simp [Uncommented]
  | cons c u ih =>
    have hopener : ['/', '*'] <+: c :: u ↔ c = '/' ∧ u.head? = some '*' := by
      cases u with
      | nil => simp
      | cons d u => simp [List.cons_prefix_cons, eq_comm]
    rw [uncommented_cons, next_address hu List.mem_cons_self, ih (List.forall_mem_cons.1 hu).2, List.infix_cons_iff,
      hopener, not_or]
    simp

theorem run_urlBody : code.run (urlBody u) = code := by
  have hfront : code.run "b: url(".toList = code := by decide
  have hback : code.run ");".toList = code := by decide
  unfold urlBody
  rw [Quoting.run_append, Quoting.run_append, hfront, run_address hu, hback]

theorem marks_urlBody : code.marks (urlBody u) = code.marks u ++ [.ends] := by
  have hfront : code.run "b: url(".toList = code := by decide
  have hbare : code.marks "b: url(".toList = [] := by decide
  have hback : code.marks ");".toList = [.ends] := by decide
  unfold urlBody
  rw [marks_append, marks_append, Quoting.run_append, hfront, run_address hu, hbare, hback, List.nil_append]

theorem depth?_urlBody : Mark.depth? 0 (code.marks (urlBody u)) = Mark.depth? 0 (code.marks u) := by
  rw [marks_urlBody hu, Mark.depth?_append]
  cases Mark.depth? 0 (code.marks u) <;> rfl

theorem uncommented_urlBody (h : code.Uncommented u) : code.Uncommented (urlBody u) := by
  have hfront : code.run "b: url(".toList = code := by decide
  have hopen : code.Uncommented ("b: url(".toList ++ u) :=
    Uncommented.append (by decide) (by rwa [hfront]) fun hl => absurd hl (by decide)
  refine hopen.append ?_ fun _ hh => absurd hh (by decide)
  rw [Quoting.run_append, hfront, run_address hu]
  decide

end

/-! ## Declarations -/

theorem tight_url (u : Text) : Tight (url u) :=
  tight_append (by decide) (by decide) (trim_eq_self_iff.1 (by decide)) (trim_eq_self_iff.1 (by decide)) u

namespace Declaration

/-- between parentheses an address is collected, whatever it holds -/
theorem run_address {u : Text} (hu : ∀ c ∈ u, isAddressChar c = true) (d n : Nat) (seen : Text) :
    u.foldl step ⟨code, d + 1, n, 0, seen, []⟩ = ⟨code, d + 1, n + byteSize u, 0, u.reverse ++ seen, []⟩ := by
  induction u generalizing n seen with
  | nil => rfl
  | cons c u ih =>
    obtain ⟨-, -, hopen, hclose, -⟩ := address_char hu List.mem_cons_self
    have hnext := next_address hu List.mem_cons_self
    have hstep : step ⟨code, d + 1, n, 0, seen, []⟩ c = ⟨code, d + 1, n + c.utf8Size, 0, c :: seen, []⟩ := by
      simp [step, St.isEnd, St.depthAfter, hnext, hopen, hclose]
    rw [List.foldl_cons, hstep, ih (List.forall_mem_cons.1 hu).2, byteSize_cons, List.reverse_cons, List.append_assoc,
      Nat.add_assoc]
    rfl

/-- **The declaration of an address is one pair.** -/
theorem ofBody_url {u : Text} (hu : ∀ c ∈ u, isAddressChar c = true) : ofBody (urlBody u) = [⟨['b'], url u, 0⟩] := by
  have hsegments : segments (urlBody u) = [(0, 'b' :: ':' :: ' ' :: url u), (7 + byteSize u + 2, [])] := by
    have hfront : "b: url(".toList.foldl step start = ⟨code, 1, 7, 0, "b: url(".toList.reverse, []⟩ := by decide
    have hback (n : Nat) (seen : Text) : ");".toList.foldl step ⟨code, 1, n, 0, seen, []⟩ =
        ⟨code, 0, n + 2, n + 2, [], [(0, (')' :: seen).reverse)]⟩ := rfl
    unfold segments urlBody
    rw [List.foldl_append, List.foldl_append, hfront, run_address hu, hback]
    simp [url]
  have hcut : cut? ':' ('b' :: ':' :: ' ' :: url u) = some (['b'], ' ' :: url u) :=
    cut?_eq_some_iff.2 ⟨rfl, by decide⟩
  have htrim : trim (' ' :: url u) = url u :=
    (trim_append (by decide : Blank [' ']) _).trans (trim_eq_self_iff.2 (tight_url u))
  have hpair : ofSegment? 0 ('b' :: ':' :: ' ' :: url u) = some ⟨['b'], url u, 0⟩ := by
    rw [ofSegment?, hcut]
    show some (⟨['b'], trim (' ' :: url u), 0⟩ : Declaration) = _
    rw [htrim]
  have hlast : ofSegment? (7 + byteSize u + 2) [] = none := rfl
  unfold ofBody
  rw [hsegments]
  simp only [List.filterMap_cons, hpair, hlast, List.filterMap_nil]

end Declaration

/-! ## Pages -/

theorem trim_urlBody (u : Text) : trim ([' '] ++ urlBody u ++ [' ']) = urlBody u := by
  have hblank : Blank [' '] := by decide
  have hfront : Tight "b: url(".toList := trim_eq_self_iff.1 (by decide)
  have hback : Tight ");".toList := trim_eq_self_iff.1 (by decide)
  have htight : Tight (urlBody u) := tight_append (by decide) (by decide) hfront hback u
  rw [append_trim _ hblank, trim_append hblank, trim_eq_self_iff.2 htight]

/-- the blocks of a page -/
def urlItems (u : Text) : List Item :=
  [.block ".a ".toList ([' '] ++ urlBody u ++ [' ']), .block " .c ".toList " d: e; ".toList]

theorem texts_urlItems (u : Text) : Item.texts (urlItems u) = urlPage u := by
  unfold urlItems urlBody urlPage
  simp [Item.texts, Item.text]

theorem newline_urlPage {u : Text} (hu : ∀ c ∈ u, isAddressChar c = true) : '\n' ∉ urlPage u := by
  intro h
  rcases List.mem_append.1 h with h | h
  · rcases List.mem_append.1 h with h | h
    · exact absurd h (by decide)
    · exact (address_char hu h).2.2.2.2 rfl
  · exact absurd h (by decide)

theorem visible_urlItems (u : Text) :
    (urlItems u).filterMap Item.visible? = [(".a".toList, urlBody u), (".c".toList, "d: e;".toList)] := by
  have hselector : Selector.normalize ".a ".toList = ".a".toList := by decide
  have hvisible : urlBody u ≠ [] := by
    unfold urlBody
    simp
  have hfirst : (Item.block ".a ".toList ([' '] ++ urlBody u ++ [' '])).visible? =
      some (".a".toList, urlBody u) := by
    rw [Item.visible?, trim_urlBody, hselector]
    exact if_neg (not_or.2 ⟨by decide, hvisible⟩)
  have hsecond : (Item.block " .c ".toList " d: e; ".toList).visible? = some (".c".toList, "d: e;".toList) := by decide
  unfold urlItems
  simp only [List.filterMap_cons, hfirst, hsecond, List.filterMap_nil]

/-- what items are read as, whatever their text is called -/
theorem parse_texts (config : ParseConfig) (source : SourceId) {items : List Item}
    (h : ∀ i ∈ items, i.WellFormed ∧ i.Uncommented) {t : Text} (ht : Item.texts items = t)
    (hsize : byteSize t ≤ config.maxInputSize) :
    (Stylesheet.parse config source t).fault = none ∧ (Stylesheet.parse config source t).issues = cuts 1 code t ∧
      (Stylesheet.parse config source t).rules.map (fun r => (r.selector, r.body)) =
        items.filterMap Item.visible? := by
  subst ht
  have hopened : code.Uncommented (Item.texts items ++ []) := by
    apply Item.uncommented_texts
    · intro i hi
      exact ⟨(h i hi).1, Item.uncommented_text (h i hi).1 (h i hi).2⟩
    · intro c hc
      cases hc
  have hparse := Stylesheet.parseAt_items source (fun i hi => (h i hi).1) (by decide : AsciiBlank []) hopened
    (by rwa [List.append_nil]) 1
  rw [List.append_nil] at hparse
  obtain ⟨hrules, hissues, hfault, -⟩ := hparse
  refine ⟨hfault, hissues, ?_⟩
  calc (Stylesheet.parse config source (Item.texts items)).rules.map (fun r => (r.selector, r.body))
      = (Stylesheet.numbered 0 (Stylesheet.rulesOf config source (Item.blocks 1 items))).map
          (fun r => (r.selector, r.body)) := congrArg _ hrules
    _ = (Stylesheet.rulesOf config source (Item.blocks 1 items)).map (fun r => (r.selector, r.body)) :=
        Stylesheet.map_numbered _ (fun _ _ => rfl) 0 _
    _ = items.filterMap Item.visible? := (Item.visible_blocks config source items 1).1

/-- **A page with a harmless address** is read as it is written. -/
theorem parse_url (config : ParseConfig) (source : SourceId) {u : Text} (hu : ∀ c ∈ u, isAddressChar c = true)
    (hcomment : ¬['/', '*'] <:+: u) (hbraces : Mark.depth? 0 (code.marks u) = some 0)
    (hsize : byteSize (urlPage u) ≤ config.maxInputSize) :
    (Stylesheet.parse config source (urlPage u)).fault = none ∧
      (Stylesheet.parse config source (urlPage u)).issues = [] ∧
      (Stylesheet.parse config source (urlPage u)).rules.map (fun r => (r.selector, r.body)) =
        [(".a".toList, urlBody u), (".c".toList, "d: e;".toList)] := by
  have hblank : Blank [' '] := by decide
  have hclosed : (code.run (urlBody u)).quote = none := by rw [run_urlBody hu]; rfl
  have hopened := uncommented_urlBody hu ((uncommented_address hu).2 hcomment)
  obtain ⟨hrun, hmarks, huncommented⟩ := read_between hclosed hopened hblank hblank (by decide)
  have hbody : Block.IsBody ([' '] ++ urlBody u ++ [' ']) := by
    refine ⟨?_, hrun⟩
    rw [hmarks, depth?_urlBody hu, hbraces]
  have hwell : ∀ i ∈ urlItems u, i.WellFormed ∧ i.Uncommented := by
    intro i hi
    rcases List.mem_pair.1 hi with rfl | rfl
    · exact ⟨⟨by decide, hbody⟩, by decide, huncommented⟩
    · exact ⟨by decide, by decide⟩
  obtain ⟨hfault, hissues, hrules⟩ := parse_texts config source hwell (texts_urlItems u) hsize
  refine ⟨hfault, ?_, ?_⟩
  · rw [hissues]
    apply cuts_eq_nil
    exact uncut_of_not_mem (newline_urlPage hu)
  · rw [hrules, visible_urlItems]

/-- the body of a rule is trimmed from that of a block, which stands in what is kept of the text -/
theorem exists_body {config : ParseConfig} {source : SourceId} {t : Text} {r : Rule}
    (hr : r ∈ (Stylesheet.parse config source t).rules) :
    ∃ body, Block.IsBody body ∧ body <:+: Comment.strip t ∧ r.body = trim body := by
  obtain ⟨b, -, n, hn, hfound⟩ := found_of_mem_parseAt hr
  obtain ⟨before, after, htext, -⟩ := hfound.part
  refine ⟨b.body, hfound.body, ⟨before ++ b.prelude ++ ['{'], ['}'] ++ after, ?_⟩, Stylesheet.body_of_toRule? hn⟩
  rw [htext]
  simp

/-- **An address that is part of a body as it is written has opened no comment**: no star of the page is missing. -/
theorem uncommented_of_rules {config : ParseConfig} {source : SourceId} {u : Text} {r : Rule}
    (hr : r ∈ (Stylesheet.parse config source (urlPage u)).rules) (hbody : r.body = urlBody u) :
    code.Uncommented u := by
  have hpage : (urlPage u).count '*' = u.count '*' := by
    unfold urlPage
    rw [List.count_append, List.count_append]
    exact Nat.zero_add _
  have hurl : (urlBody u).count '*' = u.count '*' := by
    unfold urlBody
    rw [List.count_append, List.count_append]
    exact Nat.zero_add _
  obtain ⟨body, -, hpart, htrim⟩ := exists_body hr
  have hkept : (urlBody u).count '*' ≤ (Comment.strip (urlPage u)).count '*' :=
    calc (urlBody u).count '*'
        = (trim body).count '*' := by rw [← hbody, htrim]
      _ ≤ body.count '*' := (trim_sublist body).count_le '*'
      _ ≤ (Comment.strip (urlPage u)).count '*' := hpart.sublist.count_le '*'
  have huncommented : code.Uncommented (urlPage u) := by
    by_contra hopened
    have hlost := Comment.count_star_strip hopened
    omega
  exact huncommented.of_append.1.of_append.2

/-- **The braces of an address that is part of a body are balanced.** -/
theorem balanced_of_rules {config : ParseConfig} {source : SourceId} {u : Text}
    (hu : ∀ c ∈ u, isAddressChar c = true) {r : Rule}
    (hr : r ∈ (Stylesheet.parse config source (urlPage u)).rules) (hbody : r.body = urlBody u) :
    Mark.depth? 0 (code.marks u) = some 0 := by
  obtain ⟨body, hbalanced, hpart, htrim⟩ := exists_body hr
  have hline : '\n' ∉ body := by
    intro h
    have hmem : '\n' ∈ Comment.strip (urlPage u) := hpart.subset h
    exact newline_urlPage hu ((Comment.text_sublist 1 _).subset hmem)
  have hmarks := (retouched_marks (retouched_trim body) (uncut_of_not_mem hline)).1
  rw [← depth?_urlBody hu, ← hbody, htrim, hmarks]
  exact hbalanced.balanced

/-- **When an address is opaque.** Its declaration always is one pair. A page that holds it is read as it is written,
without fault or issue, exactly if it is small enough, the address holds no comment opener and the braces of the
address are balanced. -/
theorem url_opaque_iff (config : ParseConfig) (source : SourceId) {u : Text} (hu : ∀ c ∈ u, isAddressChar c = true) :
    Declaration.ofBody (urlBody u) = [⟨['b'], url u, 0⟩] ∧
    ((Stylesheet.parse config source (urlPage u)).fault = none ∧
        (Stylesheet.parse config source (urlPage u)).issues = [] ∧
        (Stylesheet.parse config source (urlPage u)).rules.map (fun r => (r.selector, r.body)) =
          [(".a".toList, urlBody u), (".c".toList, "d: e;".toList)] ↔
      byteSize (urlPage u) ≤ config.maxInputSize ∧ ¬['/', '*'] <:+: u ∧
        Mark.depth? 0 (code.marks u) = some 0) := by
  refine ⟨Declaration.ofBody_url hu, ?_, ?_⟩
  · rintro ⟨hfault, -, hrules⟩
    have hmem : (".a".toList, urlBody u) ∈
        (Stylesheet.parse config source (urlPage u)).rules.map (fun r => (r.selector, r.body)) := by
      rw [hrules]
      exact List.mem_cons_self
    obtain ⟨r, hr, heq⟩ := List.mem_map.1 hmem
    have hbody : r.body = urlBody u := congrArg Prod.snd heq
    refine ⟨size_of_mem_parseAt hr, ?_, balanced_of_rules hu hr hbody⟩
    exact (uncommented_address hu).1 (uncommented_of_rules hr hbody)
  · rintro ⟨hsize, hcomment, hbraces⟩
    exact parse_url config source hu hcomment hbraces hsize

theorem url_opaque_semicolon :
    let s := Stylesheet.parse {} ⟨0⟩ (urlPage "a;b".toList)
    (∀ c ∈ "a;b".toList, isAddressChar c = true) ∧
    Declaration.ofBody (urlBody "a;b".toList) = [⟨['b'], "url(a;b)".toList, 0⟩] ∧
    s.fault = none ∧ s.issues = [] ∧
      s.rules.map (fun r => (r.selector, r.body)) =
        [(".a".toList, "b: url(a;b);".toList), (".c".toList, "d: e;".toList)] := by
  have hu : ∀ c ∈ "a;b".toList, isAddressChar c = true := List.all_eq_true.1 (by decide)
  obtain ⟨hpair, hopaque⟩ := url_opaque_iff {} ⟨0⟩ hu
  exact ⟨hu, hpair, hopaque.2 ⟨by decide, by decide, by decide⟩⟩

/-- an address with a comment opener loses both blocks, and one with a brace ends the first -/
theorem url_not_opaque :
    let glob := Stylesheet.parse {} ⟨0⟩ (urlPage "img/*.png".toList)
    let brace := Stylesheet.parse {} ⟨0⟩ (urlPage "x\x7dy".toList)
    ("img/*.png".toList ++ "x\x7dy".toList).all isAddressChar = true ∧
    glob.rules = [] ∧ glob.fault = some (.unterminatedBlock 1 1) ∧ glob.issues = [⟨.unterminatedComment, 1⟩] ∧
    brace.rules.map (fun r => (r.selector, r.body)) =
      [(".a".toList, "b: url(x".toList), (".c".toList, "d: e;".toList)] ∧
    brace.fault = none ∧ brace.issues = [⟨.strayCloseBrace, 1⟩] := by
  decide +kernel

end StyleCheck
