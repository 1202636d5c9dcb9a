/-
The custom properties in a body over bytes.

The loop looks for two dashes from where it has got to, measures the identifier behind them, and looks at the byte in
front; line numbers come from a cursor that only goes forward. The reader of characters cuts the body into runs of
identifier characters (`identRuns`) and keeps those that are custom properties. A run with two dashes in it is one only
if they are in front and something follows, so the loop may go on behind the run in which it found dashes.
- `customs_foldl`: where there are no two dashes, there is no custom property;
- `isCustom_run`: neither is there one where the dashes are not in front;
- `Known.advance`: the line of a position is the number of line feeds in front of it;
- `collectVariables_eq`: no slice fails, and the custom properties are those that the reader of characters finds.
-/
import StyleCheck.Proofs.Bytes.Names
import StyleCheck.Proofs.Variable.Counted

namespace StyleCheck

open Text

namespace Bytewise

/-- the byte at an index; an index out of range is an error -/
def byteAt (t : Text) (i : Nat) : Except BadSlice UInt8 :=
  match (bytes t)[i]? with
  | some b => .ok b
  | none => .error ⟨i, i + 1⟩

/-- the bytes between two indices; they may begin and end anywhere, but not out of range -/
def bytesBetween (t : Text) (start stop : Nat) : Except BadSlice (List UInt8) :=
  if start ≤ stop ∧ stop ≤ byteSize t then .ok (((bytes t).take stop).drop start) else .error ⟨start, stop⟩

/-- a position whose line is known -/
structure Cursor where
  offset : Nat
  line : Nat
  deriving DecidableEq, Repr

/-- forward to a position; never back -/
def Cursor.advance (k : Cursor) (t : Text) (i : Nat) : Except BadSlice Cursor := do
  let stop := min i (byteSize t)
  if k.offset < stop then
    let part ← bytesBetween t k.offset stop
    return ⟨stop, k.line + part.count (byte '\n')⟩
  else return k

namespace Variables

/-- what begins a custom property -/
def dashes : Text := ['-', '-']

structure St where
  cursor : Cursor
  /-- each with its line -/
  found : List (Nat × Text)
  deriving DecidableEq, Repr

/-- whether an identifier goes on up to `i` -/
def preceded (t : Text) (i : Nat) : Except BadSlice Bool :=
  if 0 < i then (byteAt t (i - 1)).map isIdentByte else .ok false

/-- two dashes at `i` -/
def visit (t : Text) (i : Nat) (s : St) : Except BadSlice (Nat × St) := do
  let rest ← sliceFrom t (i + 2)
  let stop := i + 2 + identLength rest
  let inside ← preceded t i
  if !inside ∧ 0 < identLength rest then
    let cursor ← s.cursor.advance t i
    let name ← slice t i stop
    return (stop, ⟨cursor, s.found ++ [(cursor.line, name)]⟩)
  else return (stop, s)

theorem lt_of_visit {t : Text} {i j : Nat} {s s' : St} (h : visit t i s = .ok (j, s')) : i < j := by
  obtain ⟨rest, -, h⟩ := bind_eq_ok.1 h
  obtain ⟨inside, -, h⟩ := bind_eq_ok.1 h
  have hlt {n : Nat} (hj : i + 2 + n = j) : i < j := by omega
  split_ifs at h
  · obtain ⟨cursor, -, h⟩ := bind_eq_ok.1 h
    obtain ⟨name, -, h⟩ := bind_eq_ok.1 h
    exact hlt (Prod.mk.inj (Except.ok.inj h)).1
  · exact hlt (Prod.mk.inj (Except.ok.inj h)).1

/-- where something is found, there is something -/
theorem lt_of_find? {t rest : Text} {pos n : Nat} (hrest : sliceFrom t pos = .ok rest)
    (h : find? dashes rest = some n) :
    pos < byteSize t := by
  obtain ⟨before, behind, rfl, rfl, -⟩ := slice_eq_ok_iff.1 hrest
  obtain ⟨before', behind', rfl, -, -⟩ := (find?_eq_some_iff (by decide)).1 h
  have hdashes : byteSize dashes = 2 := by decide
  simp only [byteSize_append]
  omega

/-- what is found from `pos` on -/
def run (t : Text) (pos : Nat) (s : St) : Except BadSlice St :=
  match hrest : sliceFrom t pos with
  | .error e => .error e
  | .ok rest =>
    match hfind : find? dashes rest with
    | none => .ok s
    | some n =>
      match hvisit : visit t (pos + n) s with
      | .error e => .error e
      | .ok (next, s') =>
        have : byteSize t - next < byteSize t - pos :=
          Nat.sub_lt_sub_left (lt_of_find? hrest hfind)
            (Nat.lt_of_le_of_lt (Nat.le_add_right pos n) (lt_of_visit hvisit))
        run t next s'
termination_by byteSize t - pos

end Variables

/-- the custom properties in a body, declared or used -/
def collectVariables (r : Rule) : Except BadSlice (List Occurrence) := do
  let s ← Variables.run r.body 0 ⟨⟨0, r.bodyLine⟩, []⟩
  return s.found.map fun (line, name) => ⟨.property, name, r.source, line, r.selector⟩

namespace Variables

theorem run_done {t rest : Text} {pos : Nat} (hrest : sliceFrom t pos = .ok rest) (hfind : find? dashes rest = none)
    (s : St) : run t pos s = .ok s := by
  unfold run
  split
  · rename_i h
    rw [hrest] at h
    cases h
  · rename_i h
    obtain rfl := Except.ok.inj (hrest.symm.trans h)
    split
    · rfl
    · rename_i h
      rw [hfind] at h
      cases h

theorem run_visit {t rest : Text} {pos n next : Nat} {s s' : St} (hrest : sliceFrom t pos = .ok rest)
    (hfind : find? dashes rest = some n) (hvisit : visit t (pos + n) s = .ok (next, s')) :
    run t pos s = run t next s' := by
  conv_lhs => unfold run
  split
  · rename_i h
    rw [hrest] at h
    cases h
  · rename_i h
    obtain rfl := Except.ok.inj (hrest.symm.trans h)
    split
    · rename_i h
      rw [hfind] at h
      cases h
    · rename_i h
      obtain rfl := Option.some.inj (hfind.symm.trans h)
      split
      · rename_i h
        rw [hvisit] at h
        cases h
      · rename_i h
        obtain ⟨rfl, rfl⟩ := Prod.mk.inj (Except.ok.inj (hvisit.symm.trans h))
        rfl

/-! ## Runs with dashes -/

/-- the custom properties among runs, the last one first -/
def customs (runs : List (Nat × Text)) : List (Nat × Text) :=
  runs.reverse.filter fun (_, run) => Declaration.isCustom run

theorem customs_cons (line : Nat) (run : Text) (runs : List (Nat × Text)) :
    customs ((line, run) :: runs) = customs runs ++ if Declaration.isCustom run then [(line, run)] else [] := by
  unfold customs
  rw [List.reverse_cons, List.filter_append]
  cases h : Declaration.isCustom run <;> simp [h]

theorem isCustom_iff {run : Text} : Declaration.isCustom run = true ↔ dashes <+: run ∧ 2 < run.length := by
  rw [Declaration.isCustom, Bool.and_eq_true, decide_eq_true_eq]
  exact and_congr_left fun _ => List.isPrefixOf_iff_prefix

/-- a run without two dashes is no custom property -/
theorem customs_closed {m : IdentRun.St} (h : ¬dashes <:+: m.run.reverse) : customs m.closed = customs m.runs := by
  unfold IdentRun.St.closed
  split
  · rfl
  · rw [customs_cons, if_neg fun hcustom => h (isCustom_iff.1 hcustom).1.isInfix, List.append_nil]

/-- **Where there are no two dashes, there is no custom property**, nor does the run at the end become one. -/
theorem customs_foldl {m : IdentRun.St} {w : Text} (h : ¬dashes <:+: m.run.reverse ++ w) :
    (w.foldl IdentRun.step m).run.reverse <:+ m.run.reverse ++ w ∧
      customs (w.foldl IdentRun.step m).runs = customs m.runs := by
  induction w generalizing m with
  | nil => exact ⟨by simp, rfl⟩
  | cons c w ih =>
    rw [List.foldl_cons]
    cases hc : isIdentChar c with
    | true =>
      have hstep : IdentRun.step m c = { m with run := c :: m.run } := if_pos hc
      have hparts : m.run.reverse ++ c :: w = (c :: m.run).reverse ++ w := by simp
      rw [hstep, hparts]
      exact ih (hparts ▸ h)
    | false =>
      have hstep : IdentRun.step m c = ⟨if c = '\n' then m.line + 1 else m.line, [], m.closed⟩ := by
        rw [IdentRun.step, hc, if_neg Bool.false_ne_true]
      have hclosed : customs m.closed = customs m.runs :=
        customs_closed fun hrun => h (List.infix_append_of_infix_left hrun)
      have hbehind : w <:+ m.run.reverse ++ c :: w := ⟨m.run.reverse ++ [c], by simp⟩
      have hrest : ¬dashes <:+: w := fun hinside => h (hinside.trans hbehind.isInfix)
      rw [hstep]
      obtain ⟨hrun, hruns⟩ := ih (m := ⟨if c = '\n' then m.line + 1 else m.line, [], m.closed⟩) (by simpa using hrest)
      exact ⟨(by simpa using hrun : _ <:+ w).trans hbehind, hruns.trans hclosed⟩

/-- so there is none among the runs of a text without two dashes -/
theorem customs_closed_foldl {m : IdentRun.St} {w : Text} (h : ¬dashes <:+: m.run.reverse ++ w) :
    customs (w.foldl IdentRun.step m).closed = customs m.runs := by
  obtain ⟨hrun, hruns⟩ := customs_foldl h
  rw [customs_closed fun hinside => h (hinside.trans hrun.isInfix), hruns]

/-- **A run is a custom property if its first two dashes are in front** and something follows. -/
theorem isCustom_run {r before name : Text} (hr : r <:+ before) (hfirst : ¬dashes <:+: before ++ dashes.dropLast) :
    Declaration.isCustom (r ++ (dashes ++ name)) = true ↔ r = [] ∧ name ≠ [] := by
  rw [isCustom_iff]
  constructor
  · rintro ⟨hfront, hlength⟩
    have hr_nil : r = [] := by
      by_contra hne
      have hpos := List.length_pos_iff.2 hne
      have hparts : r ++ (dashes ++ name) = r ++ dashes.dropLast ++ ('-' :: name) := by simp [dashes]
      have hfront : dashes <+: r ++ dashes.dropLast := by
        refine List.prefix_of_prefix_length_le hfront (hparts ▸ List.prefix_append ..) ?_
        simp only [List.length_append, dashes, List.length_cons, List.length_nil, List.dropLast]
        omega
      obtain ⟨front, rfl⟩ := hr
      exact hfirst (by rw [List.append_assoc]; exact List.infix_append_of_infix_right hfront.isInfix)
    subst hr_nil
    refine ⟨rfl, ?_⟩
    rintro rfl
    simp [dashes] at hlength
  · rintro ⟨rfl, hne⟩
    have hpos := List.length_pos_iff.2 hne
    refine ⟨List.prefix_append .., ?_⟩
    simp only [List.nil_append, List.length_append, dashes, List.length_cons, List.length_nil]
    omega

/-- whether the run that is being collected is empty is seen at the last character -/
theorem run_foldl_eq_nil_iff {m : IdentRun.St} (hm : m.run = []) (w : Text) :
    (w.foldl IdentRun.step m).run = [] ↔ w.getLast?.any isIdentChar = false := by
  cases w using List.reverseRecOn with
  | nil => simp [hm]
  | append_singleton w c =>
    rw [List.foldl_append, List.foldl_cons, List.foldl_nil, IdentRun.step, List.getLast?_concat, Option.any_some]
    cases isIdentChar c <;> simp

/-- in front of a character that belongs to no identifier, a run may be closed at once -/
theorem closed_foldl {v : Text} (hv : ∀ c, v.head? = some c → isIdentChar c = false) (m : IdentRun.St) :
    (v.foldl IdentRun.step m).closed = (v.foldl IdentRun.step ⟨m.line, [], m.closed⟩).closed := by
  cases v with
  | nil => rfl
  | cons c v =>
    have hstep (m : IdentRun.St) : IdentRun.step m c = ⟨if c = '\n' then m.line + 1 else m.line, [], m.closed⟩ :=
      if_neg (by rw [hv c rfl]; exact Bool.false_ne_true)
    rw [List.foldl_cons, List.foldl_cons, hstep, hstep]
    rfl

theorem head_dropWhile (t : Text) : ∀ c, (t.dropWhile isIdentChar).head? = some c → isIdentChar c = false :=
  fun c hc => by simpa [hc] using List.head?_dropWhile_not isIdentChar t

theorem ident_dashes (t : Text) : ∀ c ∈ dashes ++ t.takeWhile isIdentChar, isIdentChar c = true := by
  have hdashes : ∀ c ∈ dashes, isIdentChar c = true := fun c hc => by
    obtain rfl : c = '-' := by simpa [dashes] using hc
    decide
  exact List.forall_mem_append.2 ⟨hdashes, fun c hc => List.mem_takeWhile_imp hc⟩

/-- **Up to the first two dashes and the identifier behind them, the reader of characters finds this custom property**,
if it is one. -/
theorem customs_dashes {before : Text} (behind : Text) (line : Nat) (runs : List (Nat × Text))
    (hfirst : ¬dashes <:+: before ++ dashes.dropLast) :
    ∃ runs', customs runs' = customs runs ++
        (if before.getLast?.any isIdentChar = false ∧ behind.takeWhile isIdentChar ≠ [] then
          [(line + newlines before, dashes ++ behind.takeWhile isIdentChar)] else []) ∧
      customs ((before ++ (dashes ++ behind)).foldl IdentRun.step ⟨line, [], runs⟩).closed =
        customs ((behind.dropWhile isIdentChar).foldl IdentRun.step ⟨line + newlines before, [], runs'⟩).closed := by
  have hno : ¬dashes <:+: before := fun h => hfirst (List.infix_append_of_infix_left h)
  obtain ⟨hrun, hruns⟩ := customs_foldl (m := ⟨line, [], runs⟩) (w := before) hno
  have hempty := run_foldl_eq_nil_iff (m := ⟨line, [], runs⟩) rfl before
  have hline := IdentRun.line_foldl ⟨line, [], runs⟩ before
  have hsplit : before ++ (dashes ++ behind) =
      before ++ (dashes ++ behind.takeWhile isIdentChar) ++ behind.dropWhile isIdentChar := by
    simp [List.takeWhile_append_dropWhile]
  rw [hsplit, List.foldl_append, List.foldl_append, IdentRun.foldl_ident _ (ident_dashes behind),
    closed_foldl (head_dropWhile behind)]
  generalize before.foldl IdentRun.step ⟨line, [], runs⟩ = m at hrun hruns hempty hline
  generalize behind.takeWhile isIdentChar = name
  have hclosed : IdentRun.St.closed { m with run := (dashes ++ name).reverse ++ m.run } =
      (line + newlines before, m.run.reverse ++ (dashes ++ name)) :: m.runs := by
    rw [IdentRun.St.closed, if_neg (by simp [dashes]), hline]
    simp
  refine ⟨_, ?_, by rw [hclosed, hline]⟩
  rw [customs_cons, hruns]
  simp only [isCustom_run hrun hfirst, List.reverse_eq_nil_iff, hempty]
  split
  · rename_i hcounted
    rw [hempty.2 hcounted.1]
    rfl
  · rfl

/-! ## Lines -/

theorem count_newline_bytes (t : Text) : (bytes t).count (byte '\n') = newlines t := by
  induction t with
  | nil => rfl
  | cons c t ih =>
    have htail : (String.utf8EncodeChar c).tail.count (byte '\n') = 0 :=
      List.count_eq_zero.2 fun hmem => not_high_byte (by decide) (high_of_mem_tail hmem)
    rw [bytes_cons, List.count_append, ih, encode_eq, List.count_cons, htail, newlines_cons]
    simp [newlines, byte_eq_iff (d := '\n') (by decide), List.count_cons]

/-- the cursor is somewhere in `u`, and knows its line if `u` begins on line `line` -/
structure Known (line : Nat) (u : Text) (k : Cursor) : Prop where
  front : ∃ front back, u = front ++ back ∧ k.offset = byteSize front ∧ k.line = line + newlines front

theorem Known.append {line : Nat} {u : Text} {k : Cursor} (h : Known line u k) (w : Text) : Known line (u ++ w) k := by
  obtain ⟨front, back, rfl, hk⟩ := h
  exact ⟨front, back ++ w, List.append_assoc .., hk⟩

/-- **The line of a position is the number of line feeds in front of it.** -/
theorem Known.advance {line : Nat} {u : Text} {k : Cursor} (h : Known line u k) (v : Text) :
    k.advance (u ++ v) (byteSize u) = .ok ⟨byteSize u, line + newlines u⟩ := by
  obtain ⟨offset, l⟩ := k
  obtain ⟨front, back, rfl, hoffset, hline⟩ := h
  obtain rfl : offset = byteSize front := hoffset
  obtain rfl : l = line + newlines front := hline
  have hmin : min (byteSize (front ++ back)) (byteSize (front ++ back ++ v)) = byteSize (front ++ back) := by
    rw [byteSize_append (front ++ back)]
    omega
  unfold Cursor.advance
  simp only [hmin]
  split
  · have hrange : byteSize front ≤ byteSize (front ++ back) ∧
        byteSize (front ++ back) ≤ byteSize (front ++ back ++ v) := by
      simp only [byteSize_append]
      omega
    have hcut : bytesBetween (front ++ back ++ v) (byteSize front) (byteSize (front ++ back)) = .ok (bytes back) := by
      rw [bytesBetween, if_pos hrange, bytes_append (front ++ back), ← length_bytes (front ++ back), List.take_left,
        bytes_append front, ← length_bytes front, List.drop_left]
    rw [hcut]
    simp [bind, Except.bind, pure, Except.pure, count_newline_bytes, Nat.add_assoc]
  · rename_i hlt
    have hnil : back = [] := by
      cases back with
      | nil => rfl
      | cons c back =>
        have hpos := c.utf8Size_pos
        rw [byteSize_append, byteSize_cons] at hlt
        omega
    rw [hnil, List.append_nil]
    rfl

/-! ## Two dashes -/

/-- the byte in front of a boundary is one of an identifier character if the character in front is one -/
theorem byteAt_last (u v : Text) (c : Char) :
    ∃ b, byteAt (u ++ [c] ++ v) (byteSize (u ++ [c]) - 1) = .ok b ∧ isIdentByte b = isIdentChar c := by
  have hparts : u ++ [c] ++ v = u ++ c :: v := (List.append_cons u c v).symm
  have hpos := c.utf8Size_pos
  have hsize : byteSize (u ++ [c]) = byteSize u + c.utf8Size := by simp
  unfold byteAt
  rw [hparts]
  by_cases hone : c.utf8Size = 1
  · have hindex : byteSize (u ++ [c]) - 1 = byteSize u := by omega
    rw [hindex, getElem?_bytes]
    exact ⟨byte c, rfl, isIdentByte_byte c⟩
  · obtain ⟨b, hb, hhigh⟩ := high_behind (u := u) (v := v) (c := c) (i := byteSize (u ++ [c]) - 1) (by omega) (by omega)
    have hbeyond : 0x80 ≤ c.toNat := by
      by_contra hlt
      exact hone (size_of_ascii (Nat.lt_of_not_le hlt))
    rw [hb]
    exact ⟨b, rfl, by rw [isIdentByte_high hhigh]; simp [isIdentChar, hbeyond]⟩

theorem preceded_eq (u v : Text) : preceded (u ++ v) (byteSize u) = .ok (u.getLast?.any isIdentChar) := by
  cases u using List.reverseRecOn with
  | nil => rfl
  | append_singleton u c =>
    obtain ⟨b, hb, hident⟩ := byteAt_last u v c
    have hpos := c.utf8Size_pos
    unfold preceded
    rw [if_pos (by simp; omega), hb, List.getLast?_concat, Option.any_some, ← hident]
    rfl

/-- **Two dashes are counted** if no identifier goes on in front of them and one does behind. -/
theorem visit_eq {line : Nat} {u : Text} {s : St} (h : Known line u s.cursor) (v : Text) :
    visit (u ++ (dashes ++ v)) (byteSize u) s =
      .ok (byteSize (u ++ (dashes ++ v.takeWhile isIdentChar)),
        if u.getLast?.any isIdentChar = false ∧ v.takeWhile isIdentChar ≠ [] then
          ⟨⟨byteSize u, line + newlines u⟩, s.found ++ [(line + newlines u, dashes ++ v.takeWhile isIdentChar)]⟩
        else s) := by
  have hsize : byteSize u + 2 = byteSize (u ++ dashes) := by
    rw [byteSize_append]
    rfl
  have hrest : sliceFrom (u ++ (dashes ++ v)) (byteSize (u ++ dashes)) = .ok v := by
    rw [← List.append_assoc]
    exact sliceFrom_parts ..
  have hstop : byteSize (u ++ dashes) + identLength v = byteSize (u ++ (dashes ++ v.takeWhile isIdentChar)) := by
    rw [Names.identLength_eq, ← List.append_assoc, byteSize_append (u ++ dashes)]
  have hname : slice (u ++ (dashes ++ v)) (byteSize u) (byteSize (u ++ (dashes ++ v.takeWhile isIdentChar))) =
      .ok (dashes ++ v.takeWhile isIdentChar) :=
    slice_eq_ok_iff.2 ⟨u, v.dropWhile isIdentChar, by simp [List.takeWhile_append_dropWhile], rfl, rfl⟩
  have hpos : 0 < identLength v ↔ v.takeWhile isIdentChar ≠ [] := by
    rw [Names.identLength_eq]
    cases v.takeWhile isIdentChar with
    | nil => simp
    | cons c w =>
      have hpos := c.utf8Size_pos
      simp only [byteSize_cons, ne_eq, List.cons_ne_nil, not_false_eq_true, iff_true]
      omega
  unfold visit
  rw [hsize, hrest]
  simp only [bind, Except.bind, preceded_eq, hstop, h.advance, hname, hpos, Bool.not_eq_true', pure, Except.pure]
  split <;> rfl

/-! ## The whole body -/

/-- **Behind every run, the loop goes on to find what the reader of characters does.** -/
theorem run_eq {line : Nat} {t u v : Text} {s : St} {runs : List (Nat × Text)} (ht : t = u ++ v)
    (hstart : u = [] ∨ ∀ c, v.head? = some c → isIdentChar c = false) (hcursor : Known line u s.cursor)
    (hfound : s.found = customs runs) :
    ∃ s', run t (byteSize u) s = .ok s' ∧
      s'.found = customs (v.foldl IdentRun.step ⟨line + newlines u, [], runs⟩).closed := by
  induction hlength : v.length using Nat.strongRecOn generalizing u v s runs with
  | _ n ih =>
    have hrest : sliceFrom t (byteSize u) = .ok v := by rw [ht, sliceFrom_parts]
    cases hfind : find? dashes v with
    | none =>
      have hnone := customs_closed_foldl (m := ⟨line + newlines u, [], runs⟩) (w := v) (find?_eq_none hfind)
      exact ⟨s, run_done hrest hfind s, hfound.trans hnone.symm⟩
    | some i =>
      obtain ⟨before, behind, hv, hi, hfirst⟩ := (find?_eq_some_iff (by decide)).1 hfind
      rw [List.append_assoc] at hv
      obtain ⟨runs', hruns, hread⟩ := customs_dashes behind (line + newlines u) runs hfirst
      -- where nothing is in front of the dashes, nothing goes on from further left
      have hinside : (u ++ before).getLast?.any isIdentChar = before.getLast?.any isIdentChar := by
        rw [List.getLast?_append]
        cases hlast : before.getLast? with
        | some c => rfl
        | none =>
          rw [List.getLast?_eq_none_iff.1 hlast] at hv
          rcases hstart with rfl | hhead
          · rfl
          · exact absurd (hhead '-' (by rw [hv]; rfl)) (by decide)
      have hparts : t = u ++ before ++ (dashes ++ behind) := by rw [ht, hv, List.append_assoc]
      have hposition : byteSize (u ++ before) = byteSize u + i := by rw [byteSize_append, hi]
      have hvisit := visit_eq (hcursor.append before) behind
      rw [← hparts, hposition, hinside] at hvisit
      have hsplit : behind.takeWhile isIdentChar ++ behind.dropWhile isIdentChar = behind :=
        List.takeWhile_append_dropWhile
      have hfeeds : newlines (u ++ before ++ (dashes ++ behind.takeWhile isIdentChar)) =
          newlines u + newlines before := by
        rw [newlines_append, IdentRun.newlines_of_ident (ident_dashes behind), Nat.add_zero, newlines_append]
      rw [run_visit hrest hfind hvisit, hv, hread, Nat.add_assoc, ← hfeeds]
      have hrest' : t = u ++ before ++ (dashes ++ behind.takeWhile isIdentChar) ++ behind.dropWhile isIdentChar := by
        rw [hparts]
        simp [hsplit]
      refine ih (behind.dropWhile isIdentChar).length ?_ hrest' (.inr (head_dropWhile behind)) ?_ ?_ rfl
      · have hcount := (List.dropWhile_suffix isIdentChar (l := behind)).length_le
        rw [← hlength, hv]
        simp only [List.length_append, dashes, List.length_cons]
        omega
      · split
        · exact ⟨u ++ before, dashes ++ behind.takeWhile isIdentChar, rfl, hposition.symm, rfl⟩
        · exact (hcursor.append before).append _
      · rw [hruns, ← hfound]
        split <;> simp [Nat.add_assoc]

end Variables

/-- **No slice fails, and the custom properties in a body are those of its characters.** -/
theorem collectVariables_eq (r : Rule) : collectVariables r = .ok r.properties := by
  have hstart : Variables.Known r.bodyLine [] ⟨0, r.bodyLine⟩ := ⟨[], [], rfl, rfl, rfl⟩
  obtain ⟨s, hrun, hfound⟩ := @Variables.run_eq r.bodyLine r.body [] r.body ⟨⟨0, r.bodyLine⟩, []⟩ [] rfl (.inl rfl)
    hstart rfl
  have hrun : Variables.run r.body 0 ⟨⟨0, r.bodyLine⟩, []⟩ = .ok s := hrun
  unfold collectVariables
  rw [hrun]
  show Except.ok _ = _
  rw [hfound]
  rfl

end Bytewise

end StyleCheck
