/-
Custom properties are maximal runs of bytes.

A run of a body is maximal if all its bytes belong to identifiers, and neither the byte in front of it nor the one
behind does (`MaximalRun`). Bytes of characters beyond ASCII all belong to identifiers, so a maximal run begins and ends
where characters do, and is what a maximal run of characters is written as.
- `exists_of_bytes`, `maximalRun_bytes`: from bytes to characters;
- `exists_maximalRun_concat`: what one more element does to runs;
- `Cut.step`, `exists_cut`: the runs that have been found are those behind which something has been read;
- `exists_identRuns`: the runs of a text are its maximal ones, in order, each with its line;
- `round_bounds`: every round of the loop leads further to the right, and not beyond the end;
- `properties_maximal`: the custom properties in a body.
-/
import StyleCheck.Proofs.Bytes.Variables

namespace StyleCheck

namespace Text

/-- a part of a list with a property that neither the element in front of it nor the one behind has -/
structure MaximalRun {α : Type} (p : α → Bool) (l before run behind : List α) : Prop where
  parts : l = before ++ run ++ behind
  nonempty : run ≠ []
  inside : ∀ x ∈ run, p x = true
  before : ∀ x, before.getLast? = some x → p x = false
  behind : ∀ x, behind.head? = some x → p x = false

/-- the maximal runs of a list, in order, each with what is in front of it -/
structure MaximalRuns {α : Type} (p : α → Bool) (l : List α) (places : List (List α × List α)) : Prop where
  mem_iff : ∀ before run, (before, run) ∈ places ↔ ∃ behind, MaximalRun p l before run behind
  apart : places.Pairwise fun earlier later => earlier.1 ++ earlier.2 <+: later.1

/-! ## Characters and bytes -/

theorem bytes_ne_nil {t : Text} (h : t ≠ []) : bytes t ≠ [] := by
  obtain ⟨c, t, rfl⟩ := List.exists_cons_of_ne_nil h
  rw [bytes_cons, encode_eq]
  exact List.cons_ne_nil _ _

/-- **A text may be cut beside a byte that is not high.** -/
theorem exists_of_bytes {t : Text} {a b : List UInt8} (h : bytes t = a ++ b)
    (hcut : (∀ x, a.getLast? = some x → ¬High x) ∨ ∀ x, b.head? = some x → ¬High x) :
    ∃ u v, t = u ++ v ∧ bytes u = a ∧ bytes v = b := by
  induction t generalizing a with
  | nil =>
    obtain ⟨rfl, rfl⟩ := List.append_eq_nil_iff.1 h.symm
    exact ⟨[], [], rfl, rfl, rfl⟩
  | cons c t ih =>
    rcases List.eq_nil_or_concat' a with rfl | ⟨a', x, rfl⟩
    · exact ⟨[], c :: t, rfl, rfl, h⟩
    · rw [bytes_cons] at h
      rcases List.append_eq_append_iff.1 h with ⟨w, ha, hrest⟩ | ⟨w, hc, hb⟩
      · have hcut' : (∀ y, w.getLast? = some y → ¬High y) ∨ ∀ y, b.head? = some y → ¬High y := by
          refine hcut.imp_left fun hlast y hy => hlast y ?_
          rw [ha, List.getLast?_append, hy]
          rfl
        obtain ⟨u, v, rfl, hu, hv⟩ := ih hrest hcut'
        exact ⟨c :: u, v, rfl, by rw [bytes_cons, hu, ha], hv⟩
      · cases w with
        | nil => exact ⟨[c], t, rfl, by rw [bytes_cons, hc]; simp, hb.symm⟩
        | cons y w =>
          -- both bytes would be of the same character
          have hbeyond : 0x80 ≤ c.toNat := by
            by_contra hlt
            have hsize := congrArg List.length hc
            rw [encode_of_ascii (Nat.lt_of_not_le hlt)] at hsize
            simp only [List.length_append, List.length_cons, List.length_nil] at hsize
            omega
          have hhigh := high_of_mem hbeyond
          rw [hc] at hhigh
          rcases hcut with hlast | hhead
          · exact absurd (hhigh x (by simp)) (hlast x (by simp))
          · exact absurd (hhigh y (by simp)) (hhead y (by rw [hb]; rfl))

/-- an ASCII text is in front of what it is in front of as bytes -/
theorem prefix_bytes_iff {a t : Text} (ha : a.all (·.toNat < 0x80) = true) : bytes a <+: bytes t ↔ a <+: t := by
  constructor
  · intro h
    induction a generalizing t with
    | nil => exact List.nil_prefix
    | cons d a ih =>
      rw [List.all_cons, Bool.and_eq_true, decide_eq_true_eq] at ha
      obtain ⟨hd, ha⟩ := ha
      cases t with
      | nil => exact absurd (List.prefix_nil.1 h) (bytes_ne_nil (List.cons_ne_nil d a))
      | cons c t =>
        have hfirst : byte d = byte c ∧ (String.utf8EncodeChar d).tail ++ bytes a <+:
            (String.utf8EncodeChar c).tail ++ bytes t := by
          rw [bytes_cons, bytes_cons, encode_eq d, encode_eq c] at h
          exact List.cons_prefix_cons.1 h
        obtain rfl : c = d := (byte_eq_iff hd).1 hfirst.1.symm
        exact List.cons_prefix_cons.2 ⟨rfl, ih ha ((List.prefix_append_right_inj _).1 hfirst.2)⟩
  · rintro ⟨w, rfl⟩
    exact ⟨bytes w, (bytes_append a w).symm⟩

/-- all bytes of identifier characters belong to identifiers -/
theorem identByte_of_mem {t : Text} (h : ∀ c ∈ t, isIdentChar c = true) : ∀ b ∈ bytes t, isIdentByte b = true := by
  intro b hb
  obtain ⟨c, hc, hb⟩ := List.mem_flatMap.1 hb
  rw [encode_eq] at hb
  rcases List.mem_cons.1 hb with rfl | hb
  · rw [isIdentByte_byte]
    exact h c hc
  · exact isIdentByte_high (high_of_mem_tail hb)

theorem not_high_of_not_ident {b : UInt8} (h : isIdentByte b = false) : ¬High b := by
  intro hhigh
  rw [isIdentByte_high hhigh] at h
  cases h

/-- whether an identifier goes on in front is seen at the last byte -/
theorem last_bytes_iff {u : Text} :
    (∀ b, (bytes u).getLast? = some b → isIdentByte b = false) ↔
      ∀ c, u.getLast? = some c → isIdentChar c = false := by
  cases u using List.reverseRecOn with
  | nil => simp
  | append_singleton u c =>
    obtain ⟨b, hb, hident⟩ := Bytewise.Variables.byteAt_last u [] c
    have hlast : (bytes (u ++ [c])).getLast? = some b := by
      rw [List.append_nil] at hb
      rw [List.getLast?_eq_getElem?, length_bytes]
      unfold Bytewise.byteAt at hb
      split at hb
      · rename_i b' hb'
        rw [hb', Except.ok.inj hb]
      · cases hb
    rw [hlast, List.getLast?_concat]
    simp [hident]

/-- and whether one goes on behind, at the first -/
theorem head_bytes_iff {v : Text} :
    (∀ b, (bytes v).head? = some b → isIdentByte b = false) ↔ ∀ c, v.head? = some c → isIdentChar c = false := by
  cases v with
  | nil => simp
  | cons c v =>
    rw [bytes_cons, encode_eq]
    simp

/-- **A maximal run of bytes is a maximal run of characters**, and the other way round. -/
theorem maximalRun_bytes {t : Text} {before run behind : List UInt8} :
    MaximalRun isIdentByte (bytes t) before run behind ↔
      ∃ u x v, bytes u = before ∧ bytes x = run ∧ bytes v = behind ∧ MaximalRun isIdentChar t u x v := by
  constructor
  · intro h
    have hbefore : ∀ b, before.getLast? = some b → ¬High b := fun b hb => not_high_of_not_ident (h.before b hb)
    have hbehind : ∀ b, behind.head? = some b → ¬High b := fun b hb => not_high_of_not_ident (h.behind b hb)
    obtain ⟨u', v, rfl, hu', rfl⟩ := exists_of_bytes h.parts (.inr hbehind)
    obtain ⟨u, x, rfl, rfl, rfl⟩ := exists_of_bytes hu' (.inl hbefore)
    have hnonempty : x ≠ [] := by
      rintro rfl
      exact h.nonempty rfl
    have hinside : ∀ c ∈ x, isIdentChar c = true := by
      intro c hc
      rw [← isIdentByte_byte]
      apply h.inside
      exact List.mem_flatMap.2 ⟨c, hc, by rw [encode_eq]; exact List.mem_cons_self⟩
    exact ⟨u, x, v, rfl, rfl, rfl, rfl, hnonempty, hinside, last_bytes_iff.1 h.before, head_bytes_iff.1 h.behind⟩
  · rintro ⟨u, x, v, rfl, rfl, rfl, h⟩
    obtain rfl := h.parts
    exact ⟨by simp, bytes_ne_nil h.nonempty, identByte_of_mem h.inside, last_bytes_iff.2 h.before,
      head_bytes_iff.2 h.behind⟩

/-- a place in a text as one in its bytes -/
def encoded (place : Text × Text) : List UInt8 × List UInt8 := (bytes place.1, bytes place.2)

/-- so the maximal runs of bytes are those of characters -/
theorem maximalRuns_bytes {t : Text} {places : List (Text × Text)} (h : MaximalRuns isIdentChar t places) :
    MaximalRuns isIdentByte (bytes t) (places.map encoded) := by
  constructor
  · intro before run
    rw [List.mem_map]
    constructor
    · rintro ⟨⟨u, x⟩, hmem, hplace⟩
      obtain ⟨rfl, rfl⟩ := Prod.mk.inj hplace
      obtain ⟨v, hrun⟩ := (h.mem_iff u x).1 hmem
      exact ⟨bytes v, maximalRun_bytes.2 ⟨u, x, v, rfl, rfl, rfl, hrun⟩⟩
    · rintro ⟨behind, hrun⟩
      obtain ⟨u, x, v, rfl, rfl, -, hrun⟩ := maximalRun_bytes.1 hrun
      exact ⟨(u, x), (h.mem_iff u x).2 ⟨v, hrun⟩, rfl⟩
  · rw [List.pairwise_map]
    refine h.apart.imp ?_
    rintro earlier later ⟨w, hw⟩
    refine ⟨bytes w, ?_⟩
    calc bytes earlier.1 ++ bytes earlier.2 ++ bytes w = bytes (earlier.1 ++ earlier.2 ++ w) := by simp
      _ = bytes later.1 := congrArg bytes hw

end Text

open Text

/-! ## Runs of characters -/

section
variable {α : Type} {p : α → Bool}

/-- **One more element** ends a run at the end if it belongs to none, and otherwise goes on with it. -/
theorem exists_maximalRun_concat {l before run : List α} {x : α} :
    (∃ behind, behind ≠ [] ∧ MaximalRun p (l ++ [x]) before run behind) ↔
      ∃ behind, (behind = [] → p x = false) ∧ MaximalRun p l before run behind := by
  constructor
  · rintro ⟨behind, hne, h⟩
    obtain ⟨w, y, rfl⟩ := (List.eq_nil_or_concat' behind).resolve_left hne
    obtain ⟨hl, hxy⟩ := List.append_inj' (h.parts.trans (List.append_assoc _ w [y]).symm) rfl
    obtain rfl := List.singleton_inj.1 hxy
    refine ⟨w, ?_, hl, h.nonempty, h.inside, h.before, ?_⟩
    · rintro rfl
      exact h.behind x rfl
    · intro z hz
      apply h.behind
      rw [List.head?_append, hz]
      rfl
  · rintro ⟨behind, hx, h⟩
    refine ⟨behind ++ [x], by simp, ?_, h.nonempty, h.inside, h.before, ?_⟩
    · rw [h.parts, List.append_assoc _ behind]
    · intro z hz
      cases behind with
      | nil =>
        obtain rfl : x = z := Option.some.inj hz
        exact hx rfl
      | cons y behind => exact h.behind z hz

/-- of two runs that end together, none begins in front of what belongs to the other -/
theorem length_le_of_runs {a b run run' : List α} (h : a ++ run = b ++ run') (hrun : ∀ x ∈ run, p x = true)
    (hb : ∀ x, b.getLast? = some x → p x = false) : b.length ≤ a.length := by
  rcases List.append_eq_append_iff.1 h with ⟨w, rfl, rfl⟩ | ⟨w, rfl, -⟩
  · rcases List.eq_nil_or_concat' w with rfl | ⟨w', x, rfl⟩
    · simp
    · have htrue := hrun x (by simp)
      rw [hb x (by rw [← List.append_assoc, List.getLast?_concat])] at htrue
      cases htrue
  · simp

end

namespace IdentRun

/-- where runs begin in a text on line `line`, each with its line -/
def lined (line : Nat) (places : List (Text × Text)) : List (Nat × Text) :=
  places.map fun (before, run) => (line + newlines before, run)

/-- `s` is a state that reading `u` from line `line` on leads to: `done` is read in front of the current run, and the
runs that have been found are those behind which something has been read, in order -/
structure Cut (line : Nat) (u : Text) (s : St) (done : Text) (places : List (Text × Text)) : Prop where
  parts : u = done ++ s.run.reverse
  current : s.line = line + newlines done
  ident : ∀ c ∈ s.run.reverse, isIdentChar c = true
  ended : ∀ c, done.getLast? = some c → isIdentChar c = false
  runs : s.runs.reverse = lined line places
  mem_iff : ∀ before run, (before, run) ∈ places ↔
    ∃ behind, behind ≠ [] ∧ MaximalRun isIdentChar u before run behind
  apart : places.Pairwise fun earlier later => earlier.1 ++ earlier.2 <+: later.1
  within : ∀ p ∈ places, p.1 ++ p.2 <+: done

namespace Cut

variable {line : Nat} {u done : Text} {s : St} {places : List (Text × Text)} (h : Cut line u s done places)
include h

/-- the run at the end is the current one -/
theorem at_end {before run : Text} :
    MaximalRun isIdentChar u before run [] ↔ s.run ≠ [] ∧ before = done ∧ run = s.run.reverse := by
  constructor
  · intro hrun
    have hparts : done ++ s.run.reverse = before ++ run := by
      rw [← h.parts, hrun.parts, List.append_nil]
    have hlength := Nat.le_antisymm (length_le_of_runs hparts h.ident hrun.before)
      (length_le_of_runs hparts.symm hrun.inside h.ended)
    obtain ⟨rfl, rfl⟩ := List.append_inj hparts hlength.symm
    exact ⟨by simpa using hrun.nonempty, rfl, rfl⟩
  · rintro ⟨hne, rfl, rfl⟩
    exact ⟨by rw [List.append_nil, h.parts], by simpa using hne, h.ident, h.ended, nofun⟩

/-- every run has ended in front of the end, or is the current one -/
theorem exists_maximalRun_iff {before run : Text} : (∃ behind, MaximalRun isIdentChar u before run behind) ↔
    (before, run) ∈ places ∨ s.run ≠ [] ∧ before = done ∧ run = s.run.reverse := by
  rw [h.mem_iff, ← h.at_end]
  constructor
  · rintro ⟨behind, hrun⟩
    rcases behind with _ | ⟨c, behind⟩
    · exact .inr hrun
    · exact .inl ⟨c :: behind, List.cons_ne_nil _ _, hrun⟩
  · rintro (⟨behind, -, hrun⟩ | hrun)
    · exact ⟨behind, hrun⟩
    · exact ⟨[], hrun⟩

/-- all runs, once the current one has ended -/
theorem exists_closed : ∃ places', s.closed.reverse = lined line places' ∧ MaximalRuns isIdentChar u places' ∧
    ∀ p ∈ places', p.1 ++ p.2 <+: u := by
  have hdone : done <+: u := ⟨s.run.reverse, h.parts.symm⟩
  rcases Decidable.em (s.run = []) with hnil | hne
  · have hclosed : s.closed = s.runs := by
      rw [St.closed, hnil]
      rfl
    refine ⟨places, by rw [hclosed, h.runs], ⟨?_, h.apart⟩, fun p hp => (h.within p hp).trans hdone⟩
    intro before run
    simp [h.exists_maximalRun_iff, hnil]
  · have hclosed : s.closed = (s.line, s.run.reverse) :: s.runs := if_neg (by simpa using hne)
    refine ⟨places ++ [(done, s.run.reverse)], ?_, ⟨?_, ?_⟩, ?_⟩
    · rw [hclosed, List.reverse_cons, h.runs, h.current, lined, lined, List.map_append]
      rfl
    · intro before run
      simp [h.exists_maximalRun_iff, hne]
    · refine List.pairwise_append.2 ⟨h.apart, List.pairwise_singleton .., ?_⟩
      intro p hp q hq
      obtain rfl := List.mem_singleton.1 hq
      exact h.within p hp
    · intro p hp
      rcases List.mem_append.1 hp with hp | hp
      · exact (h.within p hp).trans hdone
      · obtain rfl := List.mem_singleton.1 hp
        rw [h.parts]

/-- **One character** goes on with the current run or ends it. -/
theorem step (c : Char) : ∃ done' places', Cut line (u ++ [c]) (step s c) done' places' := by
  cases hc : isIdentChar c with
  | true =>
    have hstep : IdentRun.step s c = { s with run := c :: s.run } := if_pos hc
    refine ⟨done, places, ?_⟩
    rw [hstep]
    refine ⟨?_, h.current, ?_, h.ended, h.runs, ?_, h.apart, h.within⟩
    · simp [h.parts]
    · intro d hd
      rw [List.reverse_cons, List.mem_append, List.mem_singleton] at hd
      rcases hd with hd | rfl
      · exact h.ident d hd
      · exact hc
    · intro before run
      rw [exists_maximalRun_concat, h.mem_iff]
      simp [hc]
  | false =>
    have hstep : IdentRun.step s c = ⟨if c = '\n' then s.line + 1 else s.line, [], s.closed⟩ := by
      rw [IdentRun.step, hc, if_neg Bool.false_ne_true]
    have hline : (if c = '\n' then s.line + 1 else s.line) = line + newlines (u ++ [c]) := by
      have hfeeds : newlines u = newlines done := by
        rw [h.parts, newlines_append, newlines_of_ident h.ident, Nat.add_zero]
      rw [newlines_append, hfeeds, ← Nat.add_assoc, ← h.current]
      exact Block.line_next s.line c
    obtain ⟨places', hruns, hall, hwithin⟩ := h.exists_closed
    refine ⟨u ++ [c], places', ?_⟩
    rw [hstep]
    refine ⟨(List.append_nil _).symm, hline, fun d hd => absurd hd List.not_mem_nil, ?_, hruns, ?_, hall.apart, ?_⟩
    · intro d hd
      rw [List.getLast?_concat] at hd
      obtain rfl := Option.some.inj hd
      exact hc
    · intro before run
      rw [exists_maximalRun_concat, hall.mem_iff]
      simp [hc]
    · intro p hp
      exact (hwithin p hp).trans (List.prefix_append u [c])

end Cut

/-- **So does every text.** -/
theorem exists_cut (line : Nat) (t : Text) :
    ∃ done places, Cut line t (t.foldl step ⟨line, [], []⟩) done places := by
  induction t using List.reverseRecOn with
  | nil =>
    refine ⟨[], [], rfl, rfl, nofun, nofun, rfl, ?_, .nil, nofun⟩
    intro before run
    refine ⟨nofun, ?_⟩
    rintro ⟨behind, hne, h⟩
    exact absurd (List.append_eq_nil_iff.1 h.parts.symm).2 hne
  | append_singleton t c ih =>
    obtain ⟨done, places, h⟩ := ih
    rw [List.foldl_append]
    exact h.step c

/-- **The runs of a text are its maximal ones**, each with its line. -/
theorem exists_identRuns (line : Nat) (t : Text) :
    ∃ places, identRuns line t = lined line places ∧ MaximalRuns isIdentChar t places := by
  obtain ⟨done, places, h⟩ := exists_cut line t
  obtain ⟨places', hruns, hall, -⟩ := h.exists_closed
  exact ⟨places', hruns, hall⟩

end IdentRun

/-! ## Custom properties -/

namespace Bytewise.Variables

/-- one round of the loop, from one position to another -/
def Round (t : Text) (pos next : Nat) : Prop :=
  ∃ rest n s s', sliceFrom t pos = .ok rest ∧ find? dashes rest = some n ∧ visit t (pos + n) s = .ok (next, s')

/-- **Every round leads further to the right**, and not beyond the end. -/
theorem round_bounds {t : Text} {pos next : Nat} (h : Round t pos next) : pos < next ∧ next ≤ byteSize t := by
  obtain ⟨rest, n, s, s', hrest, hfind, hvisit⟩ := h
  refine ⟨Nat.lt_of_le_of_lt (Nat.le_add_right pos n) (lt_of_visit hvisit), ?_⟩
  obtain ⟨behind, hbehind, hvisit⟩ := bind_eq_ok.1 hvisit
  obtain ⟨inside, -, hvisit⟩ := bind_eq_ok.1 hvisit
  obtain ⟨front, back, ht, hsize, -⟩ := slice_eq_ok_iff.1 hbehind
  have hstop : pos + n + 2 + identLength behind ≤ byteSize t := by
    have hname := byteSize_le_of_sublist (List.takeWhile_sublist (l := behind) isIdentChar)
    rw [Names.identLength_eq, ht]
    simp only [byteSize_append]
    omega
  split_ifs at hvisit
  · obtain ⟨cursor, -, hvisit⟩ := bind_eq_ok.1 hvisit
    obtain ⟨name, -, hvisit⟩ := bind_eq_ok.1 hvisit
    exact (Prod.mk.inj (Except.ok.inj hvisit)).1 ▸ hstop
  · exact (Prod.mk.inj (Except.ok.inj hvisit)).1 ▸ hstop

/-- what is a custom property is seen from its bytes -/
theorem isCustom_bytes (run : Text) :
    ((bytes dashes).isPrefixOf (bytes run) && decide (2 < (bytes run).length)) = Declaration.isCustom run := by
  rw [Bool.eq_iff_iff, Bool.and_eq_true, decide_eq_true_eq, List.isPrefixOf_iff_prefix, prefix_bytes_iff (by decide),
    isCustom_iff, length_bytes]
  apply and_congr_right
  rintro ⟨name, rfl⟩
  have hdashes : byteSize dashes = 2 ∧ dashes.length = 2 := by decide
  rw [byteSize_append, List.length_append, hdashes.1, hdashes.2]
  cases name with
  | nil => rfl
  | cons c name =>
    have hpos := c.utf8Size_pos
    simp only [byteSize_cons, List.length_cons]
    omega

end Bytewise.Variables

namespace Rule

/-- `o` records the run of bytes at `place` in the body of `r` -/
structure Records (r : Rule) (place : List UInt8 × List UInt8) (o : Occurrence) : Prop where
  category : o.category = .property
  name : bytes o.name = place.2
  source : o.source = r.source
  line : o.line = r.bodyLine + place.1.count (byte '\n')
  context : o.context = r.selector

open Bytewise.Variables (dashes Round)

/-- **The custom properties in a body are its maximal runs of identifier bytes that begin with two dashes and are longer
than those**, one for each, in order, with the line it begins on. The loop that looks for two dashes finds these and no
others, and each of its rounds leads further to the right, up to the end. -/
theorem properties_maximal (r : Rule) :
    (∃ places, MaximalRuns isIdentByte (bytes r.body) places ∧
      List.Forall₂ r.Records
        (places.filter fun (_, run) => (bytes dashes).isPrefixOf run && decide (2 < run.length)) r.properties) ∧
    Bytewise.collectVariables r = .ok r.properties ∧
    ∀ pos next, Round r.body pos next → pos < next ∧ next ≤ byteSize r.body := by
  refine ⟨?_, Bytewise.collectVariables_eq r, fun pos next => Bytewise.Variables.round_bounds⟩
  obtain ⟨places, hruns, hall⟩ := IdentRun.exists_identRuns r.bodyLine r.body
  refine ⟨places.map encoded, maximalRuns_bytes hall, ?_⟩
  have hencoded : (places.map encoded).filter
        (fun (_, run) => (bytes dashes).isPrefixOf run && decide (2 < run.length)) =
      (places.filter fun (_, run) => Declaration.isCustom run).map encoded := by
    rw [List.filter_map]
    congr 1
    exact List.filter_congr fun place _ => Bytewise.Variables.isCustom_bytes place.2
  have hproperties : r.properties =
      (places.filter fun (_, run) => Declaration.isCustom run).map fun (before, run) =>
        ⟨.property, run, r.source, r.bodyLine + newlines before, r.selector⟩ := by
    rw [Rule.properties, hruns, IdentRun.lined, List.filter_map, List.map_map]
    rfl
  rw [hencoded, hproperties, List.forall₂_map_left_iff, List.forall₂_map_right_iff, List.forall₂_same]
  rintro ⟨before, run⟩ -
  exact ⟨rfl, rfl, rfl, by rw [encoded, Bytewise.Variables.count_newline_bytes], rfl⟩

example : (ofTexts ['a'] "---x b----c --\nd--e--f --é".toList ⟨0⟩ 0).properties.map (fun o => (o.name, o.line)) =
    [("---x".toList, 1), ("--é".toList, 2)] := by decide +kernel

end Rule

end StyleCheck
