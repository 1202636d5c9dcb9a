/-
The declarations of a body over bytes.

One loop looks for the end of a segment and is left there, skipping two bytes at a backslash; the loop around it cuts
the segment out, takes it apart and goes on behind its end. The reader of characters (`Declaration.step`) closes a
segment there, or reads it to the end of the body (`Closes`).
- `closes`: the two agree on where a segment ends;
- `declarations_eq`: no slice fails, and the declarations are those that the reader of characters finds.
-/
import StyleCheck.Declaration
import StyleCheck.Proofs.Bytes.Classes
import StyleCheck.Proofs.Bytes.Loop
import StyleCheck.Proofs.Parse.Literals

namespace StyleCheck

open Quoting Text

namespace Bytewise

namespace Segment

structure St where
  quote : Option UInt8
  /-- parentheses open -/
  parens : Nat
  deriving DecidableEq, Repr

/-- one byte; the end of the segment leaves the loop -/
def body (i : Nat) (b : UInt8) (s : St) : Except Nat (Nat × St) :=
  match s.quote with
  | some q =>
    if b = byte '\\' then .ok (i + 2, s)
    else if b = q ∨ b = byte '\n' then .ok (i + 1, { s with quote := none })
    else .ok (i + 1, s)
  | none =>
    if b = byte '\\' then .ok (i + 2, s)
    else if isQuoteByte b then .ok (i + 1, { s with quote := some b })
    else if b = byte '(' then .ok (i + 1, { s with parens := s.parens + 1 })
    else if b = byte ')' then .ok (i + 1, { s with parens := s.parens - 1 })
    else if (b = byte ';' ∨ b = byte '{' ∨ b = byte '}') ∧ s.parens = 0 then .error i
    else .ok (i + 1, s)

theorem lt_of_body {i j : Nat} {b : UInt8} {s s' : St} (h : body i b s = .ok (j, s')) : i < j := by
  unfold body at h
  split at h <;> split_ifs at h
  all_goals
    obtain ⟨rfl, -⟩ := Prod.mk.inj (Except.ok.inj h)
    omega

theorem eq_of_body {i r : Nat} {b : UInt8} {s : St} (h : body i b s = .error r) : i = r := by
  unfold body at h
  split at h <;> split_ifs at h
  exact Except.error.inj h

def loop (t : Text) : Loop Nat St := ⟨bytes t, body, fun _ => lt_of_body⟩

end Segment

/-- where the segment ends that begins at `start` -/
def segmentEnd (t : Text) (start : Nat) : Nat := (Segment.loop t).stop start ⟨none, 0⟩

theorem le_segmentEnd {t : Text} {start : Nat} (h : start < byteSize t) : start ≤ segmentEnd t start :=
  Loop.le_stop (fun hbody => (Segment.eq_of_body hbody).le) (h.le.trans (length_bytes t).ge) _

/-- the declaration between two positions; a segment that cannot be cut out is an error -/
def splitDeclaration (t : Text) (start stop : Nat) : Except BadSlice (Option Declaration) := do
  let segment ← slice t start stop
  return (cut? ':' segment).bind fun (before, value) =>
    let property := trim before
    if !property.isEmpty ∧ (bytes property).all isNameByte then
      some { property, value := trim value, offset := start + (byteSize before - byteSize (trimStart before)) }
    else none

namespace Declarations

/-- one segment -/
def body (t : Text) (pos : Nat) (found : List Declaration) : Except BadSlice (Nat × List Declaration) := do
  let stop := segmentEnd t pos
  let declaration ← splitDeclaration t pos stop
  return (stop + 1, found ++ declaration.toList)

theorem lt_of_body {t : Text} {pos next : Nat} {found found' : List Declaration} (hpos : pos < (bytes t).length)
    (h : body t pos found = .ok (next, found')) : pos < next := by
  rw [length_bytes] at hpos
  obtain ⟨declaration, -, h⟩ := bind_eq_ok.1 h
  obtain ⟨rfl, -⟩ := Prod.mk.inj (Except.ok.inj h)
  exact Nat.lt_succ_of_le (le_segmentEnd hpos)

def loop (t : Text) : Loop BadSlice (List Declaration) := ⟨bytes t, fun pos _ => body t pos, lt_of_body⟩

end Declarations

/-- the declarations of a body, in order -/
def declarations (t : Text) : Except BadSlice (List Declaration) := (Declarations.loop t).run 0 []

/-! ## Where a segment ends -/

namespace Segment

/-- the reader of characters closes a segment at the position `stop`, or is still in it at the end of the text -/
inductive Closes (t u v : Text) (m : Declaration.St) (stop : Nat) : Prop where
  | ends {w v' : Text} {c : Char} : v = w ++ c :: v' → c.toNat < 0x80 → stop = byteSize (u ++ w) →
      (w ++ [c]).foldl Declaration.step m =
        ⟨code, 0, m.read + byteSize (w ++ [c]), m.read + byteSize (w ++ [c]), [],
          (m.begun, (w.reverse ++ m.seen).reverse) :: m.segments⟩ → Closes t u v m stop
  | runs : stop = byteSize t → (v.foldl Declaration.step m).begun = m.begun →
      (v.foldl Declaration.step m).seen = v.reverse ++ m.seen →
      (v.foldl Declaration.step m).segments = m.segments → Closes t u v m stop

section
variable {t u v : Text} {m : Declaration.St} {n : Nat}

/-- a character that ends no segment is collected -/
theorem step_of_not_isEnd {c : Char} (h : m.isEnd c = false) :
    Declaration.step m c =
      { m with
        quoting := m.quoting.next c
        depth := m.depthAfter c
        read := m.read + c.utf8Size
        seen := c :: m.seen } := by
  rw [Declaration.step, h, if_neg Bool.false_ne_true]

theorem isEnd_backslash (m : Declaration.St) : m.isEnd '\\' = false := by simp [Declaration.St.isEnd]

/-- what a backslash hides is collected with it -/
theorem step_escape {q : Option Char} (hm : m.quoting = ⟨q, false⟩) (c : Char) :
    m.isEnd '\\' = false ∧ (Declaration.step m '\\').isEnd c = false ∧
      (Declaration.step (Declaration.step m '\\') c).quoting = ⟨q, false⟩ ∧
      (Declaration.step (Declaration.step m '\\') c).depth = m.depth := by
  have hend := isEnd_backslash m
  have hescaped : (Declaration.step m '\\').quoting = ⟨q, true⟩ := by
    rw [step_of_not_isEnd hend, hm]
    simp [next]
  have hend' : (Declaration.step m '\\').isEnd c = false := by
    rw [Declaration.St.isEnd, hescaped]
    simp [isCode]
  refine ⟨hend, hend', ?_, ?_⟩
  · rw [step_of_not_isEnd hend', hescaped]
    rfl
  · rw [step_of_not_isEnd hend', Declaration.St.depthAfter, hescaped, step_of_not_isEnd hend]
    simp [Declaration.St.depthAfter, isCode]

theorem Closes.cons {c : Char} (h : Closes t (u ++ [c]) v (Declaration.step m c) n) (hc : m.isEnd c = false) :
    Closes t u (c :: v) m n := by
  have hstep := step_of_not_isEnd hc
  cases h with
  | @ends w v' d hv hd hstop hfold =>
    refine .ends (w := c :: w) (c := d) (by rw [hv]; rfl) hd (by rw [hstop, List.append_cons u c w]) ?_
    rw [List.cons_append, List.foldl_cons, hfold, hstep]
    simp [Nat.add_assoc]
  | runs hstop hbegun hseen hsegments =>
    rw [hstep] at hbegun hseen hsegments
    refine .runs hstop ?_ ?_ ?_ <;> rw [List.foldl_cons, hstep]
    · exact hbegun
    · rw [hseen]
      simp
    · exact hsegments

/-- the quote of a state is that of a literal or of code -/
structure Quoted (s : St) (q : Option Char) : Prop where
  quote : s.quote = q.map byte
  proper : (⟨q, false⟩ : Quoting).Proper

/-- a high byte does nothing -/
theorem body_high {s : St} {q : Option Char} (h : Quoted s q) (i : Nat) (b : UInt8) (hb : High b) :
    body i b s = .ok (i + 1, s) := by
  have hne {c : Char} (hc : c.toNat < 0x80) : b ≠ byte c := ne_byte_of_high hb hc
  unfold body
  rw [h.quote]
  cases hq : q with
  | some d =>
    have hd : d.toNat < 0x80 := ascii_of_quote (h.proper d hq)
    simp [hne (c := '\\') (by decide), hne hd, hne (c := '\n') (by decide)]
  | none =>
    simp [hne (c := '\\') (by decide), isQuoteByte_high hb, hne (c := '(') (by decide), hne (c := ')') (by decide),
      hne (c := ';') (by decide), hne (c := '{') (by decide), hne (c := '}') (by decide)]

theorem body_backslash (i : Nat) (s : St) : body i (byte '\\') s = .ok (i + 2, s) := by
  unfold body
  split <;> rw [if_pos rfl]

/-- **One character** that hides nothing ends the segment for both readers or for neither. -/
theorem body_char {s : St} {q : Option Char} {c : Char} (h : Quoted s q) (hm : m.quoting = ⟨q, false⟩)
    (hparens : s.parens = m.depth) (hc : c ≠ '\\') (i : Nat) :
    body i (byte c) s =
      if m.isEnd c then .error i
      else .ok (i + 1, ⟨((⟨q, false⟩ : Quoting).next c).quote.map byte, m.depthAfter c⟩) := by
  have hbyte {d : Char} (hd : d.toNat < 0x80) : byte c = byte d ↔ c = d := byte_eq_iff hd
  obtain ⟨quote, parens⟩ := s
  obtain ⟨rfl, hproper⟩ := h
  obtain rfl : parens = m.depth := hparens
  unfold body Declaration.St.isEnd Declaration.St.depthAfter
  rw [hm]
  cases q with
  | some d =>
    have hd : d.toNat < 0x80 := ascii_of_quote (hproper d rfl)
    simp only [Option.map_some, hbyte hd, hbyte (d := '\\') (by decide), hbyte (d := '\n') (by decide), if_neg hc, next,
      isCode, Option.isNone_some, Bool.false_and, Bool.false_eq_true, false_and, if_false]
    split <;> rfl
  | none =>
    simp only [Option.map_none, isQuoteByte_byte, hbyte (d := '\\') (by decide), hbyte (d := '(') (by decide),
      hbyte (d := ')') (by decide), hbyte (d := ';') (by decide), hbyte (d := '{') (by decide),
      hbyte (d := '}') (by decide), if_neg hc, next, isCode, Option.isNone_none, Bool.not_false, Bool.and_self,
      Bool.true_and, true_and, Bool.false_eq_true, if_false]
    by_cases hq : isQuote c = true
    · rcases isQuote_iff.1 hq with rfl | rfl <;> simp [isQuote]
    by_cases hopen : c = '('
    · simp [hopen, isQuote]
    by_cases hclose : c = ')'
    · simp [hclose, isQuote]
    have hends : ((m.depth == 0 && (c == ';' || c == '{' || c == '}')) = true) ↔
        (c = ';' ∨ c = '{' ∨ c = '}') ∧ m.depth = 0 := by
      simp [and_comm, or_assoc]
    simp only [if_neg hq, if_neg hopen, if_neg hclose, hends]
    rfl

/-- **The two readers agree on where a segment ends.** -/
theorem closes {s : St} {q : Option Char} (ht : t = u ++ v) (h : Quoted s q) (hm : m.quoting = ⟨q, false⟩)
    (hparens : s.parens = m.depth) : Closes t u v m ((loop t).stop (byteSize u) s) := by
  induction v using escape_induction generalizing u s q m with
  | nil =>
    obtain rfl : t = u := by rw [ht, List.append_nil]
    have hsize : (loop t).bytes.length ≤ byteSize t := (length_bytes t).le
    rw [Loop.stop_of_le hsize]
    exact .runs (length_bytes t) rfl rfl rfl
  | lone =>
    have hbytes : (loop t).bytes = bytes (u ++ ['\\']) := congrArg bytes ht
    have hsize := Loop.length_le_of_lone hbytes
    have hend := isEnd_backslash m
    rw [(Loop.Leads.one (Loop.head_eq hbytes) (body_backslash _ s)).stop_eq, Loop.stop_of_le hsize]
    refine .runs (length_bytes t) ?_ ?_ ?_ <;> simp [step_of_not_isEnd hend]
  | escape c v ih =>
    have hbytes : (loop t).bytes = bytes (u ++ '\\' :: c :: v) := congrArg bytes ht
    obtain ⟨hend, hend', hquoting, hdepth⟩ := step_escape hm c
    rw [(Loop.leads_escape hbytes (body_backslash _ s) (body_high h)).stop_eq]
    refine .cons (.cons ?_ hend') hend
    have hrest := ih (u := u ++ ['\\', c]) (by simp [ht]) h hquoting (hparens.trans hdepth.symm)
    rw [List.append_assoc]
    exact hrest
  | char c v hc ih =>
    have hbytes : (loop t).bytes = bytes (u ++ c :: v) := congrArg bytes ht
    have hbody := body_char h hm hparens hc (byteSize u)
    cases hend : m.isEnd c with
    | true =>
      rw [hend, if_pos rfl] at hbody
      rw [Loop.stop_error (Loop.head_eq hbytes) hbody]
      obtain ⟨hcode, hzero, hascii⟩ : m.quoting = code ∧ m.depth = 0 ∧ c.toNat < 0x80 := by
        unfold Declaration.St.isEnd at hend
        simp only [Bool.and_eq_true, beq_iff_eq, Bool.or_eq_true] at hend
        obtain ⟨⟨hcode, hzero⟩, (rfl | rfl) | rfl⟩ := hend <;> exact ⟨(isCode_iff _).1 hcode, hzero, by decide⟩
      refine .ends (w := []) rfl hascii (by simp) ?_
      rw [List.nil_append, List.foldl_cons, List.foldl_nil, Declaration.step, hend, if_pos rfl, hcode, hzero]
      simp
    | false =>
      rw [hend, if_neg Bool.false_ne_true] at hbody
      have hnext : Quoted ⟨((⟨q, false⟩ : Quoting).next c).quote.map byte, m.depthAfter c⟩
          ((⟨q, false⟩ : Quoting).next c).quote := ⟨rfl, h.proper.next c⟩
      rw [(Loop.leads_char hbytes hbody fun _ => body_high hnext).stop_eq]
      have hplain : ((⟨q, false⟩ : Quoting).next c).escaped = false := next_of_not_escaped rfl hc
      refine .cons (ih (by rw [ht, List.append_cons]) hnext ?_ ?_) hend
      · rw [step_of_not_isEnd hend, hm]
        exact congrArg (Quoting.mk _) hplain
      · rw [step_of_not_isEnd hend]

end

end Segment

/-! ## The declarations -/

/-- **A segment that has been read is cut out and taken apart.** -/
theorem splitDeclaration_eq (u w v : Text) :
    splitDeclaration (u ++ w ++ v) (byteSize u) (byteSize (u ++ w)) = .ok (Declaration.ofSegment? (byteSize u) w) := by
  unfold splitDeclaration Declaration.ofSegment?
  rw [slice_parts]
  refine congrArg Except.ok (congrArg (Option.bind _) (funext fun (before, value) => ?_))
  have hsize : byteSize before - byteSize (trimStart before) = byteSize (before.takeWhile isBlank) := by
    have hparts := congrArg byteSize (List.takeWhile_append_dropWhile (p := isBlank) (l := before))
    rw [byteSize_append] at hparts
    rw [trimStart]
    omega
  have hname (p : Text) : (!p.isEmpty ∧ (bytes p).all isNameByte) ↔ isName p := by
    rw [all_bytes isNameByte_byte (fun _ => isNameByte_high), isName, Bool.and_eq_true]
  simp only [hsize, hname]

namespace Declarations

/-- the declarations in segments that have been read, the last one first -/
def collected (segments : List (Nat × Text)) : List Declaration :=
  segments.reverse.filterMap fun (begun, w) => Declaration.ofSegment? begun w

theorem collected_cons (begun : Nat) (w : Text) (segments : List (Nat × Text)) :
    collected ((begun, w) :: segments) = collected segments ++ (Declaration.ofSegment? begun w).toList := by
  unfold collected
  rw [List.reverse_cons, List.filterMap_append]
  cases h : Declaration.ofSegment? begun w <;> simp [h]

/-- in front of a segment, with those read that have been collected -/
def between (u : Text) (segments : List (Nat × Text)) : Declaration.St :=
  ⟨code, 0, byteSize u, byteSize u, [], segments⟩

/-- one segment, up to where it ends -/
theorem body_parts {u w v : Text} (hstop : segmentEnd (u ++ w ++ v) (byteSize u) = byteSize (u ++ w))
    (segments : List (Nat × Text)) :
    body (u ++ w ++ v) (byteSize u) (collected segments) =
      .ok (byteSize (u ++ w) + 1, collected ((byteSize u, w) :: segments)) := by
  unfold body
  simp only [hstop, splitDeclaration_eq, collected_cons]
  rfl

/-- **In front of every segment, the loop goes on to collect what the reader of characters does.** -/
theorem run_eq {t u v : Text} (ht : t = u ++ v) (segments : List (Nat × Text)) {m : Declaration.St}
    (hm : v.foldl Declaration.step (between u segments) = m) :
    (loop t).run (byteSize u) (collected segments) = .ok (collected ((m.begun, m.seen.reverse) :: m.segments)) := by
  induction hn : v.length using Nat.strongRecOn generalizing u v segments with
  | _ n ih =>
    cases v with
    | nil =>
      obtain rfl : t = u := by rw [ht, List.append_nil]
      obtain rfl : between t segments = m := hm
      have hnone : Declaration.ofSegment? (byteSize t) [] = none := rfl
      rw [Loop.run_of_le (length_bytes t).le, between, List.reverse_nil, collected_cons, hnone, Option.toList_none,
        List.append_nil]
    | cons c v =>
      have hbytes : (loop t).bytes = bytes (u ++ c :: v) := congrArg bytes ht
      have hcloses : Segment.Closes t u (c :: v) (between u segments) (segmentEnd t (byteSize u)) :=
        Segment.closes ht ⟨rfl, proper_code⟩ rfl rfl
      cases hcloses with
      | @ends w v' d hv hd hstop hfold =>
        have hparts : t = u ++ w ++ d :: v' := by rw [ht, hv, List.append_assoc]
        have hbody : body t (byteSize u) (collected segments) = _ := hparts ▸ body_parts (hparts ▸ hstop) segments
        have hsize : byteSize (u ++ w) + 1 = byteSize (u ++ w ++ [d]) := by
          rw [byteSize_append (u ++ w), byteSize_cons, size_of_ascii hd, byteSize_nil]
        have hlength : v'.length < n := by
          rw [← hn, hv, List.length_append, List.length_cons]
          omega
        have hnext : (w ++ [d]).foldl Declaration.step (between u segments) =
            between (u ++ w ++ [d]) ((byteSize u, w) :: segments) := by
          rw [hfold]
          simp [between, byteSize_append]
        rw [hv, List.append_cons w d v', List.foldl_append, hnext] at hm
        rw [Loop.run_step (Loop.head_eq hbytes) hbody, hsize]
        exact ih v'.length hlength (by rw [hparts, List.append_cons]) _ hm rfl
      | runs hstop hbegun hseen hsegments =>
        have hparts : t = u ++ (c :: v) ++ [] := by rw [ht, List.append_nil]
        have hend : byteSize t = byteSize (u ++ c :: v) := congrArg byteSize ht
        have hbody : body t (byteSize u) (collected segments) = _ :=
          hparts ▸ body_parts (hparts ▸ hstop.trans hend) segments
        have hpast : (loop t).bytes.length ≤ byteSize (u ++ c :: v) + 1 := by
          rw [hbytes, length_bytes]
          exact Nat.le_succ _
        rw [hm] at hbegun hseen hsegments
        rw [Loop.run_step (Loop.head_eq hbytes) hbody, Loop.run_of_le hpast, hbegun, hseen, hsegments]
        simp [between]

end Declarations

/-- **No slice fails, and the declarations of a body are those of its characters.** -/
theorem declarations_eq (t : Text) : declarations t = .ok (Declaration.ofBody t) := by
  exact Declarations.run_eq (List.nil_append t).symm [] rfl

end Bytewise

end StyleCheck
