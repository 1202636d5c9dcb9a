/-
The removal of comments over bytes.

The loop skips two bytes behind a backslash, wherever that leads, looks one byte ahead of a slash, and jumps behind the
closer of a comment; what lies between the end of the last comment and the next one is copied in one piece. The reader
of characters does the same one character after the other (`Comment.run`).
A text falls into parts that either reader takes in one go (`reading_induction`): a backslash with the character behind
it, a comment, any other character. `Follows` says that the loop, in front of one of them, will give what the reader of
characters gives and pass over every character in the quote that this reader is in.
- `follows`: so it is at the beginning of every part;
- `strip_eq`, `slowStrip_eq`: the whole removal, with the shortcut for texts without an opener and without it;
- `strippedIn?_eq`: the quote in which each character is passed over.
-/
import StyleCheck.Proofs.Bytes.Classes
import StyleCheck.Proofs.Bytes.Loop
import StyleCheck.Proofs.Parse.Removal

namespace StyleCheck

open Quoting Text

/-! ## Characters -/

namespace Comment

/-- a comment whose contents are read up to `k` is still open -/
theorem run_open {opened line : Nat} {kept k : Text} (hk : Unclosed k) :
    run ⟨.comment opened, line, kept⟩ k =
      ⟨if k.getLast? = some '*' then .star opened else .comment opened, line + newlines k,
        (lineFeeds k).reverse ++ kept⟩ := by
  induction k using List.reverseRecOn with
  | nil => rfl
  | append_singleton k c ih =>
    obtain ⟨hc, hk⟩ := unclosed_concat.1 hk
    have hline : line + newlines (k ++ [c]) = line + newlines k + newlines [c] := by
      rw [newlines_append, Nat.add_assoc]
    rw [run_append_singleton, ih hk, lineFeeds_append, List.reverse_append, List.append_assoc, hline]
    simp only [List.getLast?_concat, Option.some.injEq]
    split
    · rename_i hstar
      rw [step_star_comment fun hd => hc hd hstar]
    · rw [step_comment]

/-- from its opener on, a comment is read as code -/
theorem quoting_opened {line : Nat} {kept k a : Text} (hk : Unclosed k) (ha : a <+: '/' :: '*' :: k) :
    (run ⟨.text code, line, kept⟩ a).place.quoting = code := by
  rcases List.prefix_cons_iff.1 ha with rfl | ⟨a, rfl, hslash⟩
  · rfl
  rcases List.prefix_cons_iff.1 hslash with rfl | ⟨a, rfl, b, rfl⟩
  · rfl
  have hrun : run ⟨.text code, line, kept⟩ ('/' :: '*' :: a) = run ⟨.comment line, line, kept⟩ a := rfl
  rw [hrun, run_open hk.of_append]
  simp only
  split <;> rfl

/-- so is a whole comment, up to its last character -/
theorem quoting_commented {line : Nat} {kept k a b : Text} {c : Char} (hk : Unclosed k)
    (h : commented k = a ++ c :: b) : (run ⟨.text code, line, kept⟩ a).place.quoting = code := by
  have hparts : ('/' :: '*' :: (k ++ ['*'])) ++ ['/'] = a ++ c :: b := by rw [← h]; simp [commented]
  have hlength : a.length ≤ ('/' :: '*' :: (k ++ ['*'])).length := by
    have hcount := congrArg List.length hparts
    simp only [List.length_append, List.length_cons, List.length_nil] at hcount ⊢
    omega
  exact quoting_opened (unclosed_concat.2 ⟨fun h => absurd h (by decide), hk⟩)
    (List.prefix_of_prefix_length_le (List.prefix_append a (c :: b)) ⟨_, hparts⟩ hlength)

/-- a slash that opens no comment may be kept at once -/
theorem run_slash_text {v : Text} (hv : v.head? ≠ some '*') (line : Nat) (kept : Text) :
    (run ⟨.slash, line, kept⟩ v).text = (run ⟨.text code, line, '/' :: kept⟩ v).text ∧
    (run ⟨.slash, line, kept⟩ v).issues = (run ⟨.text code, line, '/' :: kept⟩ v).issues ∧
    (run ⟨.slash, line, kept⟩ v).place.quoting = (run ⟨.text code, line, '/' :: kept⟩ v).place.quoting := by
  cases v with
  | nil => exact ⟨rfl, rfl, rfl⟩
  | cons c v =>
    have hstar : c ≠ '*' := by simpa using hv
    have hstep : step ⟨.slash, line, kept⟩ c = step ⟨.text code, line, '/' :: kept⟩ c := by
      by_cases hd : c = '/' <;> simp [step, passed, Place.next, hstar, hd]
    rw [run_cons, run_cons, hstep]
    exact ⟨rfl, rfl, rfl⟩

/-- **How a text is read in parts**, from inside the literal of a quote or from code on. -/
theorem reading_induction {P : Option Char → Text → Prop} (nil : ∀ q, P q [])
    (lone : ∀ q, P q ['\\'])
    (escape : ∀ q c v, P q v → P q ('\\' :: c :: v))
    (comment : ∀ k v, Unclosed k → P none v → P none (commented k ++ v))
    (unterminated : ∀ k, Unclosed k → P none ('/' :: '*' :: k))
    (char : ∀ q c v, c ≠ '\\' → (q = none → c = '/' → v.head? ≠ some '*') →
      P ((⟨q, false⟩ : Quoting).next c).quote v → P q (c :: v)) (q : Option Char) (v : Text) : P q v := by
  induction hn : v.length using Nat.strongRecOn generalizing q v with
  | _ n ih =>
    have hrest {q' : Option Char} {v' : Text} (h : v'.length < v.length) : P q' v' := ih _ (hn ▸ h) q' v' rfl
    cases v with
    | nil => exact nil q
    | cons c v =>
      by_cases hc : c = '\\'
      · rw [hc]
        cases v with
        | nil => exact lone q
        | cons d v => exact escape q d v (hrest (Nat.lt_succ_of_lt (Nat.lt_succ_self _)))
      by_cases hopen : q = none ∧ c = '/' ∧ v.head? = some '*'
      · obtain ⟨rfl, rfl, hstar⟩ := hopen
        obtain ⟨v, rfl⟩ := List.head?_eq_some_iff.1 hstar
        cases hfind : find? ['*', '/'] v with
        | none => exact unterminated v (find?_eq_none hfind)
        | some i =>
          obtain ⟨k, v', rfl, -, hfirst⟩ := (find?_eq_some_iff (by simp)).1 hfind
          have hk : Unclosed k := fun h => hfirst (List.infix_append_of_infix_left h)
          have hparts : '/' :: '*' :: (k ++ ['*', '/'] ++ v') = commented k ++ v' := by simp [commented]
          rw [hparts]
          exact comment k v' hk (hrest (by simp; omega))
      · refine char q c v hc (fun hq hd hstar => hopen ⟨hq, hd, hstar⟩) (hrest (by simp))

end Comment

/-! ## Bytes -/

namespace Bytewise

namespace Strip

structure St where
  quote : Option UInt8
  line : Nat
  /-- what lies in front of this position has been copied to `out`, or dropped -/
  copied : Nat
  out : Text
  issues : List Issue
  deriving DecidableEq, Repr

/-- a backslash at `i` hides the byte behind it -/
def skip (t : Text) (i : Nat) (s : St) : Nat × St :=
  (i + 2, if (bytes t)[i + 1]? = some (byte '\n') then { s with line := s.line + 1 } else s)

/-- a comment that opens at `i` -/
def remove (t : Text) (i : Nat) (s : St) : Except BadSlice (Nat × St) := do
  let copy ← slice t s.copied i
  let rest ← sliceFrom t (i + 2)
  let closer := find? ['*', '/'] rest
  let stop := closer.elim (byteSize t) fun offset => i + 2 + offset + 2
  let comment ← slice t i stop
  return (stop, { s with
    line := s.line + newlines comment
    copied := stop
    out := s.out ++ copy ++ List.replicate (newlines comment) '\n'
    issues := if closer.isSome then s.issues else s.issues ++ [⟨.unterminatedComment, s.line⟩] })

/-- what the byte at `i` does, once it has been counted if it is a line feed -/
def act (t : Text) (i : Nat) (b : UInt8) (s : St) : Except BadSlice (Nat × St) :=
  match s.quote with
  | some q =>
    if b = byte '\\' then .ok (skip t i s)
    else if b = q ∨ b = byte '\n' then .ok (i + 1, { s with quote := none })
    else .ok (i + 1, s)
  | none =>
    if b = byte '\\' then .ok (skip t i s)
    else if isQuoteByte b then .ok (i + 1, { s with quote := some b })
    else if b = byte '/' ∧ (bytes t)[i + 1]? = some (byte '*') then remove t i s
    else .ok (i + 1, s)

/-- one byte -/
def body (t : Text) (i : Nat) (b : UInt8) (s : St) : Except BadSlice (Nat × St) :=
  act t i b (if b = byte '\n' then { s with line := s.line + 1 } else s)

theorem lt_of_remove {t : Text} {i j : Nat} {s s' : St} (hi : i < byteSize t) (h : remove t i s = .ok (j, s')) :
    i < j := by
  unfold remove at h
  obtain ⟨copy, -, h⟩ := bind_eq_ok.1 h
  obtain ⟨rest, -, h⟩ := bind_eq_ok.1 h
  obtain ⟨comment, -, h⟩ := bind_eq_ok.1 h
  obtain ⟨rfl, -⟩ := Prod.mk.inj (Except.ok.inj h)
  cases find? ['*', '/'] rest with
  | none => exact hi
  | some offset => exact Nat.lt_of_lt_of_le (by omega) (Nat.le_add_right (i + 2 + offset) 2)

theorem lt_of_body {t : Text} {i j : Nat} {b : UInt8} {s s' : St} (hi : i < (bytes t).length)
    (h : body t i b s = .ok (j, s')) : i < j := by
  rw [length_bytes] at hi
  unfold body act skip at h
  split at h <;> split_ifs at h
  all_goals first
    | exact lt_of_remove hi h
    | obtain ⟨rfl, -⟩ := Prod.mk.inj (Except.ok.inj h)
      omega

def loop (t : Text) : Loop BadSlice St := ⟨bytes t, body t, lt_of_body⟩

/-- in front of the first byte, which is on line `line` -/
def start (line : Nat) : St := ⟨none, line, 0, [], []⟩

/-- what has not been copied yet is -/
def finish (t : Text) (s : St) : Except BadSlice (Text × List Issue) := do
  let rest ← sliceFrom t (min s.copied (byteSize t))
  return (s.out ++ rest, s.issues)

end Strip

/-- the removal without the shortcut -/
def slowStrip (line : Nat) (t : Text) : Except BadSlice (Text × List Issue) :=
  (Strip.loop t).run 0 (Strip.start line) >>= Strip.finish t

/-- the text without its comments, and what is wrong with them -/
def strip (line : Nat) (t : Text) : Except BadSlice (Text × List Issue) :=
  if contains ['/', '*'] t then slowStrip line t else .ok (t, [])

namespace Strip

/-! ## One part of a text -/

/-- the loop is in front of `v`, inside the literal of `q` if that is one, and reading characters one after the other
would have kept `kept` -/
structure At (t u v : Text) (q : Option Char) (kept : Text) (s : St) : Prop where
  parts : t = u ++ v
  quote : s.quote = q.map byte
  proper : (⟨q, false⟩ : Quoting).Proper
  kept : ∃ front back, u = front ++ back ∧ s.copied = byteSize front ∧ s.out ++ back = kept.reverse
  issues : s.issues = []

/-- a high byte does nothing -/
theorem body_high {t u v : Text} {q : Option Char} {kept : Text} {s : St} (h : At t u v q kept s) (i : Nat) {b : UInt8}
    (hb : High b) : body t i b s = .ok (i + 1, s) := by
  have hne {c : Char} (hc : c.toNat < 0x80) : b ≠ byte c := ne_byte_of_high hb hc
  unfold body act
  rw [if_neg (hne (by decide)), h.quote]
  cases hq : q with
  | none => simp [hne (c := '\\') (by decide), isQuoteByte_high hb, hne (c := '/') (by decide)]
  | some d =>
    have hd : d.toNat < 0x80 := ascii_of_quote (h.proper d hq)
    simp [hne (c := '\\') (by decide), hne hd, hne (c := '\n') (by decide)]

section
variable {t u v : Text} {q : Option Char} {kept : Text} {s : St}

theorem At.bytes_eq (h : At t u v q kept s) : (loop t).bytes = Text.bytes (u ++ v) := congrArg Text.bytes h.parts

theorem At.head {c : Char} (h : At t u (c :: v) q kept s) : (loop t).bytes[byteSize u]? = some (byte c) :=
  Loop.head_eq h.bytes_eq

theorem At.second {c : Char} (h : At t u (c :: v) q kept s) (hc : c.toNat < 0x80) :
    (bytes t)[byteSize u + 1]? = v.head?.map byte := by
  have hsize : byteSize u + 1 = byteSize (u ++ [c]) := by simp [size_of_ascii hc]
  rw [h.parts, hsize, List.append_cons, getElem?_bytes]

/-- what has been copied, and what has not -/
theorem At.collect {x : Text} (h : At t u v q kept s) :
    ∃ front back, u ++ x = front ++ back ∧ s.copied = byteSize front ∧ s.out ++ back = (x.reverse ++ kept).reverse := by
  obtain ⟨front, back, rfl, hcopied, hout⟩ := h.kept
  exact ⟨front, back ++ x, by simp, hcopied, by rw [← List.append_assoc, hout]; simp⟩

/-- a character that opens no comment and hides nothing -/
theorem body_char {c : Char} (h : At t u (c :: v) q kept s) (hc : c ≠ '\\')
    (hopen : q = none → c = '/' → v.head? ≠ some '*') :
    body t (byteSize u) (byte c) s = .ok (byteSize u + 1,
      { s with line := s.line + newlines [c], quote := ((⟨q, false⟩ : Quoting).next c).quote.map byte }) := by
  have hline : (if byte c = byte '\n' then { s with line := s.line + 1 } else s) =
      { s with line := s.line + newlines [c] } := by
    split
    · rename_i hn
      obtain rfl := (byte_eq_iff (by decide)).1 hn
      rfl
    · rename_i hn
      have hn : c ≠ '\n' := fun he => hn (congrArg byte he)
      simp [newlines, hn]
  have hback : byte c ≠ byte '\\' := fun he => hc ((byte_eq_iff (by decide)).1 he)
  rw [body, hline]
  unfold act
  cases hq : q with
  | some d =>
    have hd : d.toNat < 0x80 := ascii_of_quote (h.proper d hq)
    simp only [h.quote, hq, Option.map_some, if_neg hback, byte_eq_iff hd, byte_eq_iff (c := c) (d := '\n') (by decide),
      next, Bool.false_eq_true, if_false, if_neg hc]
    split <;> rfl
  | none =>
    have hslash : ¬(byte c = byte '/' ∧ (bytes t)[byteSize u + 1]? = some (byte '*')) := by
      rintro ⟨hd, hstar⟩
      obtain rfl := (byte_eq_iff (by decide)).1 hd
      rw [h.second (by decide), Option.map_eq_some_iff] at hstar
      obtain ⟨e, he, hstar⟩ := hstar
      exact hopen hq rfl (he.trans (congrArg some ((byte_eq_iff (by decide)).1 hstar)))
    simp only [h.quote, hq, Option.map_none, if_neg hback, isQuoteByte_byte, if_neg hslash, next, Bool.false_eq_true,
      if_false, if_neg hc]
    split <;> rfl

/-- **A character that opens no comment and hides nothing is read.** -/
theorem At.char {c : Char} (h : At t u (c :: v) q kept s) (hc : c ≠ '\\')
    (hopen : q = none → c = '/' → v.head? ≠ some '*') :
    ∃ s', (loop t).Leads (byteSize u) s (byteSize (u ++ [c])) s' ∧ s'.line = s.line + newlines [c] ∧
      At t (u ++ [c]) v ((⟨q, false⟩ : Quoting).next c).quote (c :: kept) s' := by
  let s' : St := { s with line := s.line + newlines [c], quote := ((⟨q, false⟩ : Quoting).next c).quote.map byte }
  have hparts : t = u ++ [c] ++ v := by rw [h.parts, List.append_cons]
  have hat : At t (u ++ [c]) v ((⟨q, false⟩ : Quoting).next c).quote (c :: kept) s' :=
    ⟨hparts, rfl, h.proper.next c, h.collect (x := [c]), h.issues⟩
  exact ⟨s', Loop.leads_char h.bytes_eq (body_char h hc hopen) fun _ k b hb => body_high hat k hb, rfl, hat⟩

/-- a backslash hides the byte behind it -/
theorem body_backslash (h : At t u ('\\' :: v) q kept s) :
    body t (byteSize u) (byte '\\') s = .ok (byteSize u + 2, { s with line := s.line + newlines v.head?.toList }) := by
  have hskip : skip t (byteSize u) s = (byteSize u + 2, { s with line := s.line + newlines v.head?.toList }) := by
    unfold skip
    rw [h.second (by decide)]
    cases v with
    | nil => rfl
    | cons c v =>
      simp only [List.head?_cons, Option.map_some, Option.some.injEq, byte_eq_iff (c := c) (d := '\n') (by decide)]
      split
      · rename_i hn
        rw [hn]
        rfl
      · rename_i hn
        simp [newlines, hn]
  unfold body act
  rw [if_neg (by decide), hskip]
  split <;> rfl

/-- **A backslash hides exactly the character behind it**: its further bytes do nothing. -/
theorem At.escape {c : Char} (h : At t u ('\\' :: c :: v) q kept s) :
    ∃ s', (loop t).Leads (byteSize u) s (byteSize (u ++ ['\\', c])) s' ∧ s'.line = s.line + newlines [c] ∧
      At t (u ++ ['\\', c]) v q (c :: '\\' :: kept) s' := by
  have hat : At t (u ++ ['\\', c]) v q (c :: '\\' :: kept) { s with line := s.line + newlines [c] } :=
    ⟨by simp [h.parts], h.quote, h.proper, h.collect (x := ['\\', c]), h.issues⟩
  exact ⟨_, Loop.leads_escape h.bytes_eq (body_backslash h) fun k b hb => body_high hat k hb, rfl, hat⟩

theorem newlines_commented (k : Text) : newlines (commented k) = newlines k := by
  simp [commented, newlines]

theorem replicate_newlines (k : Text) : List.replicate (newlines k) '\n' = lineFeeds k := by
  unfold lineFeeds newlines
  rw [← List.filter_eq]

/-- **A comment is jumped over**, and its line feeds are kept. -/
theorem remove_commented {k : Text} (hk : Unclosed k) (h : At t u (commented k ++ v) q kept s) :
    remove t (byteSize u) s = .ok (byteSize (u ++ commented k), { s with
      line := s.line + newlines k
      copied := byteSize (u ++ commented k)
      out := kept.reverse ++ lineFeeds k }) := by
  obtain ⟨front, back, rfl, hcopied, hout⟩ := h.kept
  have ht := h.parts
  have hcopy : slice t s.copied (byteSize (front ++ back)) = .ok back :=
    slice_eq_ok_iff.2 ⟨front, commented k ++ v, ht, hcopied.symm, rfl⟩
  have hrest : sliceFrom t (byteSize (front ++ back) + 2) = .ok (k ++ ['*', '/'] ++ v) := by
    have hparts : t = front ++ back ++ ['/', '*'] ++ (k ++ ['*', '/'] ++ v) := by simp [ht, commented]
    have hsize : byteSize (front ++ back) + 2 = byteSize (front ++ back ++ ['/', '*']) := by
      rw [byteSize_append _ ['/', '*']]
      rfl
    rw [hparts, hsize, sliceFrom_parts]
  have hfind : find? ['*', '/'] (k ++ ['*', '/'] ++ v) = some (byteSize k) :=
    (find?_eq_some_iff (by simp)).2 ⟨k, v, rfl, rfl, unclosed_concat.2 ⟨fun h => absurd h (by decide), hk⟩⟩
  have hstop : byteSize (front ++ back) + 2 + byteSize k + 2 = byteSize (front ++ back ++ commented k) := by
    have hsize : byteSize (commented k) = 2 + byteSize k + 2 := by
      have hclose : byteSize ['*', '/'] = 2 := rfl
      have hopen : '/'.utf8Size = 1 ∧ '*'.utf8Size = 1 := by decide
      simp only [commented, byteSize_append, byteSize_cons, hclose, hopen]
      omega
    rw [byteSize_append _ (commented k), hsize]
    omega
  have hcomment : slice t (byteSize (front ++ back)) (byteSize (front ++ back ++ commented k)) = .ok (commented k) :=
    slice_eq_ok_iff.2 ⟨front ++ back, v, by rw [ht, ← List.append_assoc], rfl, rfl⟩
  unfold remove
  simp only [hcopy, hrest, hfind, Option.elim_some, Option.isSome_some, if_true, hstop, hcomment, newlines_commented,
    replicate_newlines, hout, bind, Except.bind]
  rfl

/-- a comment that is not closed is dropped with all that is left -/
theorem remove_unterminated {k : Text} (hk : Unclosed k) (h : At t u ('/' :: '*' :: k) q kept s) :
    remove t (byteSize u) s = .ok (byteSize t, { s with
      line := s.line + newlines k
      copied := byteSize t
      out := kept.reverse ++ lineFeeds k
      issues := [⟨.unterminatedComment, s.line⟩] }) := by
  obtain ⟨front, back, rfl, hcopied, hout⟩ := h.kept
  have ht := h.parts
  have hcopy : slice t s.copied (byteSize (front ++ back)) = .ok back :=
    slice_eq_ok_iff.2 ⟨front, '/' :: '*' :: k, ht, hcopied.symm, rfl⟩
  have hrest : sliceFrom t (byteSize (front ++ back) + 2) = .ok k := by
    have hparts : t = front ++ back ++ ['/', '*'] ++ k := by simp [ht]
    have hsize : byteSize (front ++ back) + 2 = byteSize (front ++ back ++ ['/', '*']) := by
      rw [byteSize_append _ ['/', '*']]
      rfl
    rw [hparts, hsize, sliceFrom_parts]
  have hfind : find? ['*', '/'] k = none := by
    rw [Option.eq_none_iff_forall_ne_some]
    intro n hn
    obtain ⟨before, behind, rfl, -, -⟩ := (find?_eq_some_iff (by simp)).1 hn
    exact hk ⟨before, behind, rfl⟩
  have hcomment : slice t (byteSize (front ++ back)) (byteSize t) = .ok ('/' :: '*' :: k) :=
    slice_eq_ok_iff.2 ⟨front ++ back, [], by rw [ht, List.append_nil], rfl, by rw [ht]⟩
  have hfeeds : newlines ('/' :: '*' :: k) = newlines k := by simp [newlines]
  unfold remove
  simp only [hcopy, hrest, hfind, Option.elim_none, Option.isSome_none, hcomment, hfeeds, replicate_newlines, hout,
    h.issues, bind, Except.bind]
  rfl

/-- a slash and a star in code open a comment -/
theorem body_opener (h : At t u ('/' :: '*' :: v) none kept s) :
    body t (byteSize u) (byte '/') s = remove t (byteSize u) s := by
  have hstar : (bytes t)[byteSize u + 1]? = some (byte '*') := by
    rw [h.second (by decide)]
    rfl
  unfold body act
  rw [if_neg (by decide), h.quote]
  simp only [Option.map_none]
  rw [if_neg (by decide), if_neg (by decide), if_pos ⟨trivial, hstar⟩]

end

/-! ## Part after part -/

/-- whether two readers that have read some more will have kept the same and stand at the same -/
def Alike (m m' : Comment.St) : Prop :=
  m.text = m'.text ∧ m.issues = m'.issues ∧ m.place.quoting = m'.place.quoting

/-- in front of `v`, the loop will give what the reader of characters gives, and pass over every character in the quote
that this reader is in -/
structure Follows (t u v : Text) (s : St) (m : Comment.St) : Prop where
  result : ((loop t).run (byteSize u) s >>= finish t) = .ok ((Comment.run m v).text, (Comment.run m v).issues)
  passes : (loop t).Passes St.quote u v s fun a => (Comment.run m a).place.quoting.quote.map byte

section
variable {t u v w : Text} {q : Option Char} {kept : Text} {s s' : St} {m m' : Comment.St}

/-- **One part more.** -/
theorem Follows.part (hleads : (loop t).Leads (byteSize u) s (byteSize (u ++ w)) s')
    (hpasses : (loop t).Passes St.quote u w s fun a => (Comment.run m a).place.quoting.quote.map byte)
    (halike : ∀ x, x <+: v → Alike (Comment.run m (w ++ x)) (Comment.run m' x)) (h : Follows t (u ++ w) v s' m') :
    Follows t u (w ++ v) s m := by
  obtain ⟨htext, hissues, -⟩ := halike v (List.prefix_refl v)
  refine ⟨by rw [hleads.run_eq, h.result, htext, hissues], hpasses.part hleads (fun x hx => ?_) h.passes⟩
  rw [(halike x hx).2.2]

/-- what is left to copy at the end of the text -/
theorem finish_of_copied {front back : Text} (ht : t = front ++ back) (hcopied : s.copied = byteSize front) :
    finish t s = .ok (s.out ++ back, s.issues) := by
  have hmin : min s.copied (byteSize t) = byteSize front := by rw [hcopied, ht, byteSize_append]; omega
  have hrest : sliceFrom t (min s.copied (byteSize t)) = .ok back := by rw [hmin, ht, sliceFrom_parts]
  unfold finish
  rw [hrest]
  rfl

/-- what a backslash hides is kept with it -/
theorem step_escape (q : Option Char) (line : Nat) (c : Char) :
    Comment.run ⟨.text ⟨q, false⟩, line, kept⟩ ['\\', c] =
      ⟨.text ⟨q, false⟩, line + newlines [c], c :: '\\' :: kept⟩ := by
  have hback : Comment.step ⟨.text ⟨q, false⟩, line, kept⟩ '\\' = ⟨.text ⟨q, true⟩, line, '\\' :: kept⟩ := by
    simp [Comment.step, Comment.passed, Comment.Place.next, next]
  rw [Comment.run_cons, hback]
  by_cases hn : c = '\n' <;>
    simp [Comment.run, Comment.step, Comment.passed, Comment.Place.next, next, isCode, newlines, hn]

/-- a character that opens no comment and hides nothing may be kept at once -/
theorem alike_char {c : Char} (hc : c ≠ '\\') (hopen : q = none → c = '/' → v.head? ≠ some '*') (line : Nat)
    {x : Text} (hx : x <+: v) :
    Alike (Comment.run ⟨.text ⟨q, false⟩, line, kept⟩ ([c] ++ x))
      (Comment.run ⟨.text ⟨((⟨q, false⟩ : Quoting).next c).quote, false⟩, line + newlines [c], c :: kept⟩ x) := by
  have hplain : ((⟨q, false⟩ : Quoting).next c).escaped = false := next_of_not_escaped rfl hc
  have hnext : (⟨((⟨q, false⟩ : Quoting).next c).quote, false⟩ : Quoting) = (⟨q, false⟩ : Quoting).next c :=
    congrArg (Quoting.mk _) hplain.symm
  rw [hnext, List.singleton_append, Comment.run_cons]
  by_cases hslash : (⟨q, false⟩ : Quoting).isCode = true ∧ c = '/'
  · obtain ⟨hq, hs⟩ := Comment.step_slash hslash line kept
    obtain rfl := hslash.2
    rw [hs, hq]
    refine Comment.run_slash_text (fun hstar => ?_) line kept
    obtain ⟨w, hw⟩ := hx
    obtain ⟨y, rfl⟩ := List.head?_eq_some_iff.1 hstar
    refine hopen (congrArg Quoting.quote hq) rfl ?_
    rw [← hw]
    rfl
  · have hs : Comment.step ⟨.text ⟨q, false⟩, line, kept⟩ c =
        ⟨.text ((⟨q, false⟩ : Quoting).next c), line + newlines [c], c :: kept⟩ := by
      simp only [Comment.step, Comment.passed, Comment.Place.next, if_neg hslash, List.singleton_append]
      by_cases hn : c = '\n' <;> simp [newlines, hn]
    rw [hs]
    exact ⟨rfl, rfl, rfl⟩

/-- an unterminated comment runs to the end -/
theorem follows_unterminated {k : Text} (h : At t u ('/' :: '*' :: k) none kept s) (hk : Unclosed k) :
    Follows t u ('/' :: '*' :: k) s ⟨.text code, s.line, kept⟩ := by
  have hbody : body t (byteSize u) (byte '/') s = _ := (body_opener h).trans (remove_unterminated hk h)
  have hrun : Comment.run ⟨.text code, s.line, kept⟩ ('/' :: '*' :: k) =
      ⟨if k.getLast? = some '*' then .star s.line else .comment s.line, s.line + newlines k,
        (lineFeeds k).reverse ++ kept⟩ := Comment.run_open hk
  refine ⟨?_, Loop.passes_step h.head hbody fun a c b hparts => ⟨?_, h.quote.trans ?_⟩⟩
  · rw [Loop.run_step h.head hbody, Loop.run_of_le (length_bytes t).le]
    refine (finish_of_copied (List.append_nil t).symm rfl).trans ?_
    rw [hrun]
    unfold Comment.St.text Comment.St.issues
    split <;> simp [Comment.Place.held]
  · rw [h.parts]
    exact Loop.size_lt_of_part hparts
  · have hquoting : (Comment.run ⟨.text code, s.line, kept⟩ a).place.quoting = code :=
      Comment.quoting_opened hk ⟨c :: b, hparts.symm⟩
    rw [hquoting]
    rfl

/-- **In front of every part, the loop does what the reader of characters does.** -/
theorem follows (h : At t u v q kept s) : Follows t u v s ⟨.text ⟨q, false⟩, s.line, kept⟩ := by
  induction q, v using Comment.reading_induction generalizing u kept s with
  | nil q =>
    obtain ⟨front, back, hu, hcopied, hout⟩ := h.kept
    have ht : t = u := by rw [h.parts, List.append_nil]
    refine ⟨?_, Loop.passes_nil⟩
    rw [Loop.run_of_le (by rw [ht]; exact (length_bytes u).le)]
    exact (finish_of_copied (ht.trans hu) hcopied).trans (by rw [hout, h.issues]; rfl)
  | lone q =>
    obtain ⟨front, back, hu, hcopied, hout⟩ := h.collect (x := ['\\'])
    have hsize := Loop.length_le_of_lone (L := loop t) (congrArg bytes h.parts)
    refine ⟨?_, Loop.passes_step h.head (body_backslash h) fun a c b hparts => ?_⟩
    · rw [Loop.run_step h.head (body_backslash h), Loop.run_of_le hsize]
      refine (finish_of_copied (h.parts.trans hu) hcopied).trans ?_
      simp [Comment.run, Comment.step, Comment.passed, Comment.Place.next, Comment.St.text, Comment.St.issues,
        Comment.Place.held, hout, h.issues]
    · obtain rfl := eq_nil_of_singleton hparts
      exact ⟨by simp, h.quote⟩
  | escape q c v ih =>
    obtain ⟨s', hleads, hline, hat⟩ := h.escape
    refine Follows.part (w := ['\\', c]) hleads (Loop.passes_step h.head (body_backslash h) ?_) (fun x _ => ?_) (ih hat)
    · intro a d b hparts
      cases a with
      | nil => exact ⟨by simp, h.quote⟩
      | cons e a =>
        obtain ⟨rfl, hrest⟩ := List.cons.inj hparts
        obtain rfl := eq_nil_of_singleton hrest
        refine ⟨by simp [show '\\'.utf8Size = 1 by decide], h.quote.trans ?_⟩
        simp [Comment.run, Comment.step, Comment.Place.next, Comment.Place.quoting, next]
    · rw [Comment.run_append, step_escape, ← hline]
      exact ⟨rfl, rfl, rfl⟩
  | comment k v hk ih =>
    have hopener : At t u ('/' :: '*' :: (k ++ ['*', '/'] ++ v)) none kept s := by simpa [commented] using h
    have hbody : body t (byteSize u) (byte '/') s = _ := (body_opener hopener).trans (remove_commented hk h)
    refine Follows.part (w := commented k) (.one hopener.head hbody)
      (Loop.passes_step hopener.head hbody fun a c b hparts => ⟨Loop.size_lt_of_part hparts, h.quote.trans ?_⟩)
      (fun x _ => ?_) (@ih _ ((lineFeeds k).reverse ++ kept) _ ?_)
    · have hquoting : (Comment.run ⟨.text ⟨none, false⟩, s.line, kept⟩ a).place.quoting = code :=
        Comment.quoting_commented hk hparts
      rw [hquoting]
      rfl
    · rw [Comment.run_append, Comment.run_commented hk (by rfl)]
      exact ⟨rfl, rfl, rfl⟩
    · exact ⟨by rw [h.parts, List.append_assoc], h.quote, h.proper, ⟨_, [], (List.append_nil _).symm, rfl, by simp⟩,
        h.issues⟩
  | unterminated k hk => exact follows_unterminated h hk
  | char q c v hc hopen ih =>
    obtain ⟨s', hleads, hline, hat⟩ := h.char hc hopen
    refine Follows.part (w := [c]) hleads
      (Loop.passes_step h.head (body_char h hc hopen) fun a d b hparts => ?_) (fun x hx => ?_) (ih hat)
    · obtain rfl := eq_nil_of_singleton hparts
      exact ⟨by simp, h.quote⟩
    · rw [hline]
      exact alike_char hc hopen s.line hx

end

theorem at_start (line : Nat) (t : Text) : At t [] t none [] (start line) :=
  ⟨rfl, rfl, nofun, ⟨[], [], rfl, rfl, rfl⟩, rfl⟩

end Strip

/-- **The removal over bytes never fails, and is that over characters.** -/
theorem slowStrip_eq (line : Nat) (t : Text) :
    slowStrip line t =
      .ok ((Comment.run (Comment.start line) t).text, (Comment.run (Comment.start line) t).issues) :=
  (Strip.follows (Strip.at_start line t)).result

/-- a text in which no star stands behind a slash opens no comment -/
theorem uncommented_of_contains {t : Text} (h : contains ['/', '*'] t = false) (q : Quoting) : q.Uncommented t := by
  induction t generalizing q with
  | nil => trivial
  | cons c t ih =>
    unfold contains at h
    obtain ⟨hfront, ht⟩ := Bool.or_eq_false_iff.1 h
    refine uncommented_cons.2 ⟨?_, ih ht _⟩
    rintro ⟨-, rfl, hstar⟩
    obtain ⟨t, rfl⟩ := List.head?_eq_some_iff.1 hstar
    simp at hfront

/-- **So is the removal with its shortcut.** -/
theorem strip_eq (line : Nat) (t : Text) :
    strip line t = .ok ((Comment.run (Comment.start line) t).text, (Comment.run (Comment.start line) t).issues) := by
  unfold strip
  split
  · exact slowStrip_eq line t
  · rename_i h
    obtain ⟨htext, hissues⟩ := Comment.run_start_uncommented (uncommented_of_contains (by simpa using h) code) line
    rw [htext, hissues]

/-- the quote in which the removal passes over the byte at `p` -/
def strippedIn? (line : Nat) (t : Text) (p : Nat) : Option (Option UInt8) :=
  ((Strip.loop t).passing p 0 (Strip.start line)).map Strip.St.quote

/-- **The removal passes over every character in the quote that the reader of characters is in.** -/
theorem strippedIn?_eq (line : Nat) (a b : Text) (c : Char) :
    strippedIn? line (a ++ c :: b) (byteSize a) =
      some ((Comment.run (Comment.start line) a).place.quoting.quote.map byte) := by
  exact (Strip.follows (Strip.at_start line (a ++ c :: b))).passes a c b rfl

end Bytewise

end StyleCheck
