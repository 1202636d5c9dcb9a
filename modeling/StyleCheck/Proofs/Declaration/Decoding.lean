/-
What is written as declarations is read as these declarations.

A declaration is written as a name, a colon and a value, with blanks around each, and ended by a semicolon (`Written`).
Its value may hold anything, as long as its literals and parentheses are closed and no semicolon or brace stands outside
them (`Sealed`). Reading it up to the semicolon leads back to where it began, so nothing in a value reaches the next
declaration.
- `foldl_sealed`: a sealed text is collected whole;
- `ofSegment?_written`: what is written is taken apart again;
- `read_texts`: reading one declaration after the other;
- `ordered_run`, `offsets_ascending`: segments, and so declarations, begin further and further to the right;
- `ofBody_written`: the declarations of a body are those that were written, and any declarations stand where they say.
-/
import StyleCheck.Proofs.Bytes.Declarations
import StyleCheck.Proofs.Identifier.Lines

namespace StyleCheck.Declaration

open Quoting Text
open Bytewise.Declarations (between collected collected_cons)

/-- parentheses open after `c`, which is read as `q` says; one that closes nothing is passed over -/
def level (q : Quoting) (depth : Nat) (c : Char) : Nat :=
  if q.isCode ∧ c = '(' then depth + 1
  else if q.isCode ∧ c = ')' then depth - 1
  else depth

/-- from `q` and a number of open parentheses on, a text leads to code with all parentheses closed, and no semicolon or
brace in it is read as code outside parentheses -/
def Sealed (q : Quoting) (depth : Nat) : Text → Prop
  | [] => q = code ∧ depth = 0
  | c :: t => ¬(q.isCode = true ∧ depth = 0 ∧ (c = ';' ∨ c = '{' ∨ c = '}')) ∧ Sealed (q.next c) (level q depth c) t

instance decidableSealed : (q : Quoting) → (depth : Nat) → (t : Text) → Decidable (Sealed q depth t)
  | q, depth, [] => inferInstanceAs (Decidable (q = code ∧ depth = 0))
  | q, depth, c :: t =>
    have := decidableSealed (q.next c) (level q depth c) t
    inferInstanceAs (Decidable (¬(q.isCode = true ∧ depth = 0 ∧ (c = ';' ∨ c = '{' ∨ c = '}')) ∧
      Sealed (q.next c) (level q depth c) t))

/-- a declaration as it is written -/
structure Written where
  /-- blanks in front of the property -/
  lead : Text
  property : Text
  /-- blanks in front of the colon -/
  gap : Text
  /-- blanks behind the colon -/
  space : Text
  value : Text
  /-- blanks in front of the semicolon -/
  tail : Text
  deriving DecidableEq, Repr

namespace Written

/-- what stands in front of the colon -/
def before (w : Written) : Text := w.lead ++ w.property ++ w.gap

/-- what stands behind it -/
def after (w : Written) : Text := w.space ++ w.value ++ w.tail

def text (w : Written) : Text := w.before ++ ':' :: w.after

structure WellFormed (w : Written) : Prop where
  lead : Blank w.lead
  property : isName w.property = true
  gap : Blank w.gap
  space : Blank w.space
  value : Sealed code 0 w.value
  tail : Blank w.tail

instance (w : Written) : Decidable w.WellFormed :=
  decidable_of_iff (Blank w.lead ∧ isName w.property = true ∧ Blank w.gap ∧ Blank w.space ∧ Sealed code 0 w.value ∧
    Blank w.tail)
    ⟨fun ⟨h1, h2, h3, h4, h5, h6⟩ => ⟨h1, h2, h3, h4, h5, h6⟩, fun ⟨h1, h2, h3, h4, h5, h6⟩ => ⟨h1, h2, h3, h4, h5, h6⟩⟩

/-- declarations one behind the other, each ended by a semicolon -/
def texts (ws : List Written) : Text := ws.flatMap fun w => w.text ++ [';']

/-- the declaration that is meant, where `front` stands in front of it -/
def declared (front : Text) (w : Written) : Declaration := ⟨w.property, trim w.value, byteSize (front ++ w.lead)⟩

/-- what is meant by declarations one behind the other -/
def declarations (ws : List Written) : List Declaration := ws.mapIdx fun i w => w.declared (texts (ws.take i))

theorem texts_cons (w : Written) (ws : List Written) : texts (w :: ws) = w.text ++ [';'] ++ texts ws :=
  List.flatMap_cons

end Written

/-! ## Sealed texts -/

theorem sealed_append {q : Quoting} {depth : Nat} {a b : Text} (ha : Sealed q depth a) (hb : Sealed code 0 b) :
    Sealed q depth (a ++ b) := by
  induction a generalizing q depth with
  | nil =>
    obtain ⟨rfl, rfl⟩ := ha
    exact hb
  | cons c a ih => exact ⟨ha.1, ih ha.2⟩

/-- characters that do nothing are sealed -/
theorem sealed_of_class {p : Char → Bool} (hp : ['"', '\'', '\\', '(', ')', ';', '{', '}'].all (!p ·) = true) {t : Text}
    (h : ∀ c ∈ t, p c = true) : Sealed code 0 t := by
  simp only [List.all_cons, List.all_nil, Bool.and_true, Bool.and_eq_true, Bool.not_eq_true'] at hp
  obtain ⟨hdouble, hsingle, hescape, hopen, hclose, hend, hleft, hright⟩ := hp
  induction t with
  | nil => exact ⟨rfl, rfl⟩
  | cons c t ih =>
    obtain ⟨hc, ht⟩ := List.forall_mem_cons.1 h
    have hnext : code.next c = code := by
      simp [next, code, isQuote, ne_of_class hc hescape, ne_of_class hc hdouble, ne_of_class hc hsingle]
    have hlevel : level code 0 c = 0 := by simp [level, ne_of_class hc hopen]
    refine ⟨?_, ?_⟩
    · rintro ⟨-, -, rfl | rfl | rfl⟩
      · exact ne_of_class hc hend rfl
      · exact ne_of_class hc hleft rfl
      · exact ne_of_class hc hright rfl
    · rw [hnext, hlevel]
      exact ih ht

theorem sealed_of_blank {t : Text} (h : Blank t) : Sealed code 0 t := sealed_of_class (by decide) h

theorem Written.WellFormed.sealed {w : Written} (h : w.WellFormed) : Sealed code 0 w.text := by
  have hname : Sealed code 0 w.property := sealed_of_class (by decide) (isName_iff.1 h.property).2
  have hbefore : Sealed code 0 w.before :=
    sealed_append (sealed_append (sealed_of_blank h.lead) hname) (sealed_of_blank h.gap)
  have hafter : Sealed code 0 w.after :=
    sealed_append (sealed_append (sealed_of_blank h.space) h.value) (sealed_of_blank h.tail)
  have hcolon : Sealed code 0 [':'] := by decide
  exact sealed_append hbefore (sealed_append hcolon hafter)

/-- **A sealed text is collected whole**, and leads to code with all parentheses closed. -/
theorem foldl_sealed {t : Text} {s : St} (h : Sealed s.quoting s.depth t) :
    t.foldl step s = { s with
      quoting := code
      depth := 0
      read := s.read + byteSize t
      seen := t.reverse ++ s.seen } := by
  induction t generalizing s with
  | nil =>
    obtain ⟨hquoting, hdepth⟩ := h
    rw [← hquoting, ← hdepth]
    rfl
  | cons c t ih =>
    obtain ⟨hc, ht⟩ := h
    have hend : s.isEnd c = false := by
      rw [Bool.eq_false_iff]
      intro hend
      simp only [St.isEnd, Bool.and_eq_true, Bool.or_eq_true, beq_iff_eq, or_assoc] at hend
      exact hc ⟨hend.1.1, hend.1.2, hend.2⟩
    have hstep := Bytewise.Segment.step_of_not_isEnd hend
    have hrest : Sealed (step s c).quoting (step s c).depth t := by
      rw [hstep]
      exact ht
    rw [List.foldl_cons, ih hrest, hstep]
    simp [Nat.add_assoc]

/-! ## Declarations that are written -/

/-- **What is written is taken apart again.** -/
theorem ofSegment?_written {w : Written} (h : w.WellFormed) (front : Text) :
    ofSegment? (byteSize front) w.text = some (w.declared front) := by
  obtain ⟨hne, hchars⟩ := isName_iff.1 h.property
  have hblank {t : Text} (ht : Blank t) : ':' ∉ t := fun hmem => absurd (ht ':' hmem) (by decide)
  have hname : ':' ∉ w.property := fun hmem => absurd (hchars ':' hmem) (by decide)
  have hcut : cut? ':' w.text = some (w.before, w.after) := by
    refine cut?_eq_some_iff.2 ⟨rfl, ?_⟩
    simp only [Written.before, List.mem_append, not_or]
    exact ⟨⟨hblank h.lead, hname⟩, hblank h.gap⟩
  have hproperty : trim w.before = w.property := by
    rw [Written.before, append_trim _ h.gap, trim_append h.lead, (isWord_of_isName h.property).trim]
  have hvalue : trim w.after = trim w.value := by
    rw [Written.after, append_trim _ h.tail, trim_append h.space]
  have hlead : w.before.takeWhile isBlank = w.lead := by
    obtain ⟨c, rest, hcons⟩ := List.exists_cons_of_ne_nil hne
    have hc : ¬isBlank c = true := by
      simp [not_blank_of_nameChar (hchars c (by rw [hcons]; exact List.mem_cons_self))]
    rw [Written.before, List.append_assoc, List.takeWhile_append_of_pos h.lead, hcons, List.cons_append,
      List.takeWhile_cons_of_neg hc, List.append_nil]
  simp [ofSegment?, hcut, hproperty, h.property, hvalue, hlead, Written.declared]

/-- a semicolon outside literals and parentheses ends a segment -/
theorem step_semicolon {s : St} (hquoting : s.quoting = code) (hdepth : s.depth = 0) :
    step s ';' = ⟨code, 0, s.read + 1, s.read + 1, [], (s.begun, s.seen.reverse) :: s.segments⟩ := by
  have hsize : ';'.utf8Size = 1 := by decide
  have hend : s.isEnd ';' = true := by simp [St.isEnd, hquoting, hdepth]
  rw [step, if_pos hend, hquoting, hdepth, hsize]

/-- one declaration, up to its semicolon -/
theorem read_written {w : Written} (h : w.WellFormed) (front : Text) (segments : List (Nat × Text)) :
    (w.text ++ [';']).foldl step (between front segments) =
      between (front ++ (w.text ++ [';'])) ((byteSize front, w.text) :: segments) := by
  have hsealed : Sealed (between front segments).quoting (between front segments).depth w.text := h.sealed
  have hsize : byteSize [';'] = 1 := by decide
  rw [List.foldl_append, foldl_sealed hsealed, List.foldl_cons, List.foldl_nil, step_semicolon rfl rfl]
  simp [between, hsize, Nat.add_assoc]

/-- **One declaration after the other** is collected, with all that is in front of it. -/
theorem read_texts {ws : List Written} (h : ∀ w ∈ ws, w.WellFormed) (front : Text) (segments : List (Nat × Text)) :
    ∃ segments', (Written.texts ws).foldl step (between front segments) =
        between (front ++ Written.texts ws) segments' ∧
      collected segments' =
        collected segments ++ ws.mapIdx fun i w => w.declared (front ++ Written.texts (ws.take i)) := by
  induction ws generalizing front segments with
  | nil => exact ⟨segments, by simp [Written.texts], by simp⟩
  | cons w ws ih =>
    obtain ⟨hw, hws⟩ := List.forall_mem_cons.1 h
    obtain ⟨segments', hread, hcollected⟩ :=
      ih hws (front ++ (w.text ++ [';'])) ((byteSize front, w.text) :: segments)
    refine ⟨segments', ?_, ?_⟩
    · rw [Written.texts_cons, List.foldl_append, read_written hw, hread]
      simp
    · rw [hcollected, collected_cons, ofSegment?_written hw, List.mapIdx_cons]
      simp [Written.texts]

/-- the last semicolon may be left out -/
theorem ofBody_concat {t : Text} (hquoting : (t.foldl step start).quoting = code)
    (hdepth : (t.foldl step start).depth = 0) : ofBody (t ++ [';']) = ofBody t := by
  have hread : (t ++ [';']).foldl step start = step (t.foldl step start) ';' := List.foldl_append
  have hnone (n : Nat) : ofSegment? n [] = none := rfl
  unfold ofBody segments
  rw [hread, step_semicolon hquoting hdepth]
  simp [hnone]

/-! ## Where declarations stand -/

/-- segments that have been read end in front of the next one, and nothing has been read behind the current one -/
structure Ordered (s : St) : Prop where
  current : s.begun + byteSize s.seen = s.read
  closed : ∀ p ∈ s.segments, p.1 + byteSize p.2 < s.begun
  apart : s.segments.Pairwise fun later earlier => earlier.1 + byteSize earlier.2 < later.1

/-- **One character keeps segments in order.** -/
theorem ordered_step {s : St} (h : Ordered s) (c : Char) : Ordered (step s c) := by
  obtain ⟨hcurrent, hclosed, hapart⟩ := h
  have hpos := c.utf8Size_pos
  unfold step
  split
  · refine ⟨rfl, ?_, ?_⟩
    · refine List.forall_mem_cons.2 ⟨?_, fun p hp => ?_⟩
      · show s.begun + byteSize s.seen.reverse < s.read + c.utf8Size
        rw [byteSize_reverse, hcurrent]
        omega
      · have hp := hclosed p hp
        show p.1 + byteSize p.2 < s.read + c.utf8Size
        omega
    · exact List.pairwise_cons.2 ⟨fun p hp => hclosed p hp, hapart⟩
  · refine ⟨?_, hclosed, hapart⟩
    rw [byteSize_cons]
    show s.begun + (c.utf8Size + byteSize s.seen) = s.read + c.utf8Size
    omega

/-- **So does every text.** -/
theorem ordered_run {s : St} (h : Ordered s) (t : Text) : Ordered (t.foldl step s) := by
  induction t generalizing s with
  | nil => exact h
  | cons c t ih => exact ih (ordered_step h c)

/-- each segment of a body ends in front of the next -/
theorem segments_ordered (body : Text) :
    (segments body).Pairwise fun earlier later => earlier.1 + byteSize earlier.2 < later.1 := by
  have hstart : Ordered start := ⟨rfl, by simp [start], .nil⟩
  obtain ⟨-, hclosed, hapart⟩ := ordered_run hstart body
  exact List.pairwise_reverse.2 (List.pairwise_cons.2 ⟨hclosed, hapart⟩)

/-- a declaration begins inside its segment -/
theorem offset_within {begun : Nat} {segment : Text} {d : Declaration} (h : ofSegment? begun segment = some d) :
    begun ≤ d.offset ∧ d.offset ≤ begun + byteSize segment := by
  obtain ⟨before, value, rfl, -, -, hoffset⟩ := of_ofSegment? h
  have hlead := byteSize_le_of_sublist (List.takeWhile_sublist (p := isBlank) (l := before))
  rw [hoffset, byteSize_append]
  omega

/-- **Declarations begin further and further to the right.** -/
theorem offsets_ascending (body : Text) : ((ofBody body).map (·.offset)).Pairwise (· < ·) := by
  rw [List.pairwise_map]
  refine (segments_ordered body).filterMap _ fun p p' hlt d hd d' hd' => ?_
  have hd := offset_within hd
  have hd' := offset_within hd'
  omega

/-! ## Whole bodies -/

/-- **The declarations of a body are those that were written**, in order, each with its value trimmed and the offset of
its property, whatever literals, escapes and parentheses its value holds and whatever blanks are around its name, its
colon and its value; the last semicolon may be left out. And in every body at all, declarations begin further and
further to the right, each where the bytes of its property stand. -/
theorem ofBody_written {ws : List Written} (h : ∀ w ∈ ws, w.WellFormed) :
    ofBody (Written.texts ws) = Written.declarations ws ∧
    ofBody (Written.texts ws).dropLast = Written.declarations ws ∧
    ∀ body, ((ofBody body).map (·.offset)).Pairwise (· < ·) ∧
      ∀ d ∈ ofBody body, slice body d.offset (d.offset + byteSize d.property) = .ok d.property := by
  have hwhole : ofBody (Written.texts ws) = Written.declarations ws := by
    obtain ⟨segments, hread, hcollected⟩ := read_texts h [] []
    have hnone : ofSegment? (byteSize ([] ++ Written.texts ws)) [] = none := rfl
    have hstate : (Written.texts ws).foldl step start = between ([] ++ Written.texts ws) segments := hread
    calc ofBody (Written.texts ws)
        = collected ((byteSize ([] ++ Written.texts ws), []) :: segments) := by
          unfold ofBody Declaration.segments
          rw [hstate]
          rfl
      _ = collected segments := by
          rw [collected_cons, hnone]
          exact List.append_nil _
      _ = _ := hcollected
  refine ⟨hwhole, ?_, fun body => ⟨offsets_ascending body, fun d hd => ?_⟩⟩
  · cases ws using List.reverseRecOn with
    | nil => exact hwhole
    | append_singleton ws w =>
      have hw := h w (by simp)
      obtain ⟨segments, hread, -⟩ := read_texts (fun w' hw' => h w' (List.mem_append_left _ hw')) [] []
      have hparts : Written.texts (ws ++ [w]) = Written.texts ws ++ w.text ++ [';'] := by simp [Written.texts]
      have hsealed : Sealed (between ([] ++ Written.texts ws) segments).quoting
          (between ([] ++ Written.texts ws) segments).depth w.text := hw.sealed
      have hstate : (Written.texts ws).foldl step start = between ([] ++ Written.texts ws) segments := hread
      have hend : ((Written.texts ws ++ w.text).foldl step start).quoting = code ∧
          ((Written.texts ws ++ w.text).foldl step start).depth = 0 := by
        rw [List.foldl_append, hstate, foldl_sealed hsealed]
        exact ⟨rfl, rfl⟩
      rw [← hwhole, hparts, List.dropLast_concat]
      exact (ofBody_concat hend.1 hend.2).symm
  · obtain ⟨⟨before, after, hbody, hoffset⟩, -⟩ := mem_ofBody hd
    exact slice_eq_ok_iff.2 ⟨before, after, hbody, hoffset, by rw [byteSize_append, hoffset]⟩

/-- nested parentheses and literals with semicolons, braces and quotes in them; blanks beyond ASCII, an escaped
semicolon, a parenthesis that closes nothing and a literal cut by the end of its line; and no value at all -/
def nestedValues : List Written :=
  [⟨"\n ".toList, "--a".toList, [], [' '], "url(b;(c{}:)) \"d;\\\";\" e:f".toList, ['\t']⟩,
    ⟨[Char.ofNat 0xa0], ['g'], [Char.ofNat 0x2003], [], "\\; é) 'h;\n'i'".toList, []⟩,
    ⟨[], "-_1".toList, [], [], [], []⟩]

theorem ofBody_written_nested :
    (∀ w ∈ nestedValues, w.WellFormed) ∧
    ofBody (Written.texts nestedValues).dropLast =
      [⟨"--a".toList, "url(b;(c{}:)) \"d;\\\";\" e:f".toList, 2⟩, ⟨['g'], "\\; é) 'h;\n'i'".toList, 36⟩,
        ⟨"-_1".toList, [], 56⟩] := by
  have hformed : ∀ w ∈ nestedValues, w.WellFormed := by decide
  have hmeant : Written.declarations nestedValues =
      [⟨"--a".toList, "url(b;(c{}:)) \"d;\\\";\" e:f".toList, 2⟩, ⟨['g'], "\\; é) 'h;\n'i'".toList, 36⟩,
        ⟨"-_1".toList, [], 56⟩] := by
    decide +kernel
  obtain ⟨-, hlast, -⟩ := ofBody_written hformed
  exact ⟨hformed, hlast.trans hmeant⟩

end StyleCheck.Declaration
