/-
The search for blocks over bytes.

The loop keeps positions where the reader of characters (`Block.run`) keeps texts: where the prelude begins and ends,
and where the body begins. It cuts the two out when the block is closed. Behind a backslash it skips a whole character.
`At` says that the loop is where the reader of characters is, with the texts at the positions (`Stands`).
- `At.char`, `At.escape`: so it is one character on, and behind what a backslash hides;
- `follows`: so it is to the end, in the same quote at every character;
- `scan_eq`: the whole search.
-/
import StyleCheck.Proofs.Bytes.Classes
import StyleCheck.Proofs.Bytes.Loop
import StyleCheck.Proofs.Parse.Continuation
import StyleCheck.Proofs.Parse.Literals

namespace StyleCheck

open Quoting Text

namespace Bytewise

namespace Scan

structure St where
  line : Nat
  depth : Nat
  quote : Option UInt8
  /-- position and line of the first character of what has begun -/
  begun : Option (Nat × Nat)
  /-- position and line of the body of the block that is open -/
  opened : Nat × Nat
  /-- where its prelude begins and ends -/
  prelude : Nat × Nat
  blocks : List Block
  issues : List Issue
  statements : Nat
  deriving DecidableEq, Repr

/-- something begins at `i`, unless it has begun already -/
def begin (i : Nat) (s : St) : St :=
  { s with begun := if s.depth = 0 then s.begun.or (some (i, s.line)) else s.begun }

/-- where the character ends that a backslash at `i` hides -/
def escapeEnd (t : Text) (i : Nat) : Except BadSlice Nat := do
  let rest ← sliceFrom t (i + 1)
  return i + 1 + rest.head?.elim 0 Char.utf8Size

/-- a backslash at `i` -/
def escape (t : Text) (i : Nat) (s : St) : Except BadSlice (Nat × St) := do
  let stop ← escapeEnd t i
  return (stop, if (bytes t)[i + 1]? = some (byte '\n') then { s with line := s.line + 1 } else s)

/-- an opening brace at `i` -/
def openBrace (i : Nat) (s : St) : St :=
  if s.depth = 0 then
    { s with
      prelude := (s.begun.elim i Prod.fst, i)
      opened := (i + 1, s.line)
      begun := s.begun.or (some (i, s.line))
      depth := s.depth + 1 }
  else { s with depth := s.depth + 1 }

/-- a closing brace at `i`, with a block open -/
def closeBrace (t : Text) (i : Nat) (s : St) : Except BadSlice St := do
  if s.depth - 1 = 0 then
    let prelude ← slice t s.prelude.1 s.prelude.2
    let body ← slice t s.opened.1 i
    return { s with
      depth := s.depth - 1
      blocks := s.blocks ++ [⟨prelude, body, s.begun.elim s.opened.2 Prod.snd, s.opened.2⟩]
      begun := none }
  else return { s with depth := s.depth - 1 }

/-- one byte inside a literal -/
def quotedBody (t : Text) (i : Nat) (b q : UInt8) (s : St) : Except BadSlice (Nat × St) :=
  if b = byte '\\' then escape t i s
  else if b = byte '\n' then
    .ok (i + 1, { s with
      issues := s.issues ++ [⟨.unterminatedString, s.line⟩], quote := none, line := s.line + 1 })
  else if b = q then .ok (i + 1, { s with quote := none })
  else .ok (i + 1, s)

/-- one byte outside -/
def codeBody (t : Text) (i : Nat) (b : UInt8) (s : St) : Except BadSlice (Nat × St) :=
  if b = byte '\n' then .ok (i + 1, { s with line := s.line + 1 })
  else if b = byte '\\' then escape t i (begin i s)
  else if isQuoteByte b then .ok (i + 1, { begin i s with quote := some b })
  else if b = byte '{' then .ok (i + 1, openBrace i s)
  else if b = byte '}' ∧ s.depth = 0 then
    .ok (i + 1, { s with issues := s.issues ++ [⟨.strayCloseBrace, s.line⟩], begun := none })
  else if b = byte '}' then (closeBrace t i s).map (i + 1, ·)
  else if b = byte ';' ∧ s.depth = 0 then
    .ok (i + 1, { s with statements := s.statements + s.begun.elim 0 fun _ => 1, begun := none })
  else if isBlankByte b then .ok (i + 1, s)
  else .ok (i + 1, begin i s)

/-- one byte -/
def body (t : Text) (i : Nat) (b : UInt8) (s : St) : Except BadSlice (Nat × St) :=
  match s.quote with
  | some q => quotedBody t i b q s
  | none => codeBody t i b s

theorem lt_of_escape {t : Text} {i j : Nat} {s s' : St} (h : escape t i s = .ok (j, s')) : i < j := by
  obtain ⟨stop, hstop, h⟩ := bind_eq_ok.1 h
  obtain ⟨rest, -, hrest⟩ := bind_eq_ok.1 hstop
  obtain ⟨rfl, -⟩ := Prod.mk.inj (Except.ok.inj h)
  obtain rfl := Except.ok.inj hrest
  omega

theorem lt_of_body {t : Text} {i j : Nat} {b : UInt8} {s s' : St} (h : body t i b s = .ok (j, s')) : i < j := by
  have hone {s₁ : St} (h : (Except.ok (i + 1, s₁) : Except BadSlice (Nat × St)) = .ok (j, s')) : i < j := by
    obtain ⟨rfl, -⟩ := Prod.mk.inj (Except.ok.inj h)
    exact Nat.lt_succ_self i
  unfold body quotedBody codeBody at h
  split at h <;> split_ifs at h
  all_goals first
    | exact lt_of_escape h
    | exact hone h
    | skip
  cases hclose : closeBrace t i s with
  | error e =>
    rw [hclose] at h
    cases h
  | ok s₁ =>
    rw [hclose] at h
    exact hone h

def loop (t : Text) : Loop BadSlice St := ⟨bytes t, body t, fun _ => lt_of_body⟩

/-- in front of the first byte, which is on line `line` -/
def start (line : Nat) : St := ⟨line, 0, none, none, (0, line), (0, 0), [], [], 0⟩

/-- a block open at the end is a fault; visible text that opened none is reported -/
def finish (t : Text) (s : St) : Except BadSlice Block.Found :=
  if 0 < s.depth then .ok ⟨s.blocks, s.issues, some (.unterminatedBlock s.opened.2 s.depth), s.statements⟩
  else
    match s.begun with
    | none => .ok ⟨s.blocks, s.issues, none, s.statements⟩
    | some (pos, line) =>
      if pos < byteSize t then do
        let rest ← sliceFrom t pos
        return ⟨s.blocks, if (trim rest).isEmpty then s.issues else s.issues ++ [⟨.trailingContent, line⟩], none,
          s.statements⟩
      else .ok ⟨s.blocks, s.issues, none, s.statements⟩

end Scan

/-- everything in a text whose first character is on line `line` -/
def scan (line : Nat) (t : Text) : Except BadSlice Block.Found :=
  (Scan.loop t).run 0 (Scan.start line) >>= Scan.finish t

/-- the quote in which the search passes over the byte at `p` -/
def scannedIn? (line : Nat) (t : Text) (p : Nat) : Option (Option UInt8) :=
  ((Scan.loop t).passing p 0 (Scan.start line)).map Scan.St.quote

namespace Scan

/-! ## Where the loop is -/

/-- the texts that are being collected lie between the positions that have been noted -/
def Stands (u : Text) (s : St) : Block.Place → Prop
  | .between => s.depth = 0 ∧ s.begun = none
  | .before l seen => s.depth = 0 ∧ ∃ front, u = front ++ seen.reverse ∧ s.begun = some (byteSize front, l)
  | .within p l o d seen => s.depth = d + 1 ∧ ∃ front, u = front ++ p ++ '{' :: seen.reverse ∧
      s.prelude = (byteSize front, byteSize (front ++ p)) ∧ s.opened = (byteSize (front ++ p ++ ['{']), o) ∧
      ∃ pos, s.begun = some (pos, l)

/-- what the loop and the reader of characters have found, in front of the rest of a text -/
structure Holds (u : Text) (s : St) (m : Block.St) : Prop where
  line : s.line = m.line
  place : Stands u s m.place
  blocks : s.blocks = m.blocks.reverse
  issues : s.issues = m.issues.reverse
  statements : s.statements = m.statements

/-- the loop is where the reader of characters is: at a boundary, in the same quote, behind no backslash -/
structure At (t u v : Text) (s : St) (m : Block.St) : Prop where
  parts : t = u ++ v
  holds : Holds u s m
  quote : s.quote = m.quoting.quote.map byte
  proper : m.quoting.Proper
  plain : m.quoting.escaped = false
  begun : m.quoting.quote ≠ none → m.place ≠ .between

/-- a character that is collected has begun something, unless it is a blank between the blocks -/
theorem keep_ne_between {p : Block.Place} {c : Char} (h : p ≠ .between ∨ isAsciiBlank c = false) (line : Nat) :
    p.keep line c ≠ .between := by
  cases p with
  | between =>
    have hc : isAsciiBlank c = false := h.resolve_left (not_not_intro rfl)
    simp [Block.Place.keep, hc]
  | before l seen | within p l o d seen => simp [Block.Place.keep]

/-- a character that is only collected; where nothing has begun, it has to be a blank -/
theorem Stands.keep {u : Text} {s : St} {p : Block.Place} (h : Stands u s p) {c : Char}
    (hc : p = .between → isAsciiBlank c = true) (line : Nat) : Stands (u ++ [c]) s (p.keep line c) := by
  cases p with
  | between =>
    rw [Block.Place.keep, if_pos (hc rfl)]
    exact h
  | before l seen =>
    obtain ⟨hdepth, front, rfl, hbegun⟩ := h
    exact ⟨hdepth, front, by simp, hbegun⟩
  | within p l o d seen =>
    obtain ⟨hdepth, front, rfl, hrest⟩ := h
    exact ⟨hdepth, front, by simp, hrest⟩

/-- a visible character begins something, or is collected -/
theorem Stands.begin {u : Text} {s : St} {p : Block.Place} (h : Stands u s p) {c : Char} (hc : isAsciiBlank c = false) :
    Stands (u ++ [c]) (begin (byteSize u) s) (p.keep s.line c) ∧ p.keep s.line c ≠ .between := by
  refine ⟨?_, keep_ne_between (Or.inr hc) s.line⟩
  unfold Scan.begin
  cases p with
  | between =>
    obtain ⟨hdepth, hbegun⟩ := h
    rw [if_pos hdepth, hbegun, Block.Place.keep, hc, if_neg Bool.false_ne_true]
    exact ⟨hdepth, u, rfl, rfl⟩
  | before l seen =>
    obtain ⟨hdepth, front, rfl, hbegun⟩ := h
    rw [if_pos hdepth, hbegun]
    exact ⟨hdepth, front, by simp, rfl⟩
  | within p l o d seen =>
    obtain ⟨hdepth, front, rfl, hrest⟩ := h
    rw [if_neg (by omega)]
    exact ⟨hdepth, front, by simp, hrest⟩

/-- where something has begun, nothing else does -/
theorem Stands.begin_eq {u : Text} {s : St} {p : Block.Place} (h : Stands u s p) (hp : p ≠ .between) (i : Nat) :
    Scan.begin i s = s := by
  unfold Scan.begin
  cases p with
  | between => exact absurd rfl hp
  | before l seen =>
    obtain ⟨-, front, -, hbegun⟩ := h
    rw [hbegun, Option.some_or, ite_self, ← hbegun]
  | within p l o d seen => rw [if_neg (by have := h.1; omega)]

theorem Stands.openBrace {u : Text} {s : St} {m : Block.St} (h : Stands u s m.place) (hline : s.line = m.line) :
    Stands (u ++ ['{']) (openBrace (byteSize u) s) (Block.openBrace m).place := by
  have hsize : byteSize u + 1 = byteSize (u ++ ['{']) := by
    rw [byteSize_append]
    rfl
  unfold Scan.openBrace Block.openBrace
  cases hp : m.place with
  | between =>
    rw [hp] at h
    obtain ⟨hdepth, hbegun⟩ := h
    rw [if_pos hdepth, hbegun]
    refine ⟨by simp [hdepth], u, by simp, by simp, ?_, byteSize u, ?_⟩
    · simp [hsize, hline]
    · simp [hline]
  | before l seen =>
    rw [hp] at h
    obtain ⟨hdepth, front, rfl, hbegun⟩ := h
    rw [if_pos hdepth, hbegun]
    refine ⟨by simp [hdepth], front, by simp, by simp, ?_, byteSize front, rfl⟩
    simp only [hline, hsize, List.append_assoc]
  | within p l o d seen =>
    rw [hp] at h
    obtain ⟨hdepth, front, rfl, hrest⟩ := h
    rw [if_neg (by omega)]
    exact ⟨by simp [hdepth], front, by simp, hrest⟩

theorem Holds.openBrace {u : Text} {s : St} {m : Block.St} (h : Holds u s m) :
    Holds (u ++ ['{']) (openBrace (byteSize u) s) (Block.openBrace m) := by
  have hplace := h.place.openBrace h.line
  obtain ⟨hline, -, hblocks, hissues, hstatements⟩ := h
  unfold Scan.openBrace at hplace ⊢
  split at hplace <;> rename_i hdepth
  · rw [if_pos hdepth]
    exact ⟨hline, hplace, hblocks, hissues, hstatements⟩
  · rw [if_neg hdepth]
    exact ⟨hline, hplace, hblocks, hissues, hstatements⟩

/-- **A brace that closes a block cuts its two texts out**; one that closes none does not get here. -/
theorem Holds.closeBrace {t u v : Text} {s : St} {m : Block.St} (ht : t = u ++ v) (h : Holds u s m)
    (hdepth : s.depth ≠ 0) :
    ∃ s', closeBrace t (byteSize u) s = .ok s' ∧ s'.quote = s.quote ∧ Holds (u ++ ['}']) s' (Block.closeBrace m) := by
  obtain ⟨hline, hplace, hblocks, hissues, hstatements⟩ := h
  unfold Scan.closeBrace Block.closeBrace
  cases hp : m.place with
  | between =>
    rw [hp] at hplace
    exact absurd hplace.1 hdepth
  | before l seen =>
    rw [hp] at hplace
    exact absurd hplace.1 hdepth
  | within p l o d seen =>
    rw [hp] at hplace
    obtain ⟨hd, front, rfl, hprelude, hopened, pos, hbegun⟩ := hplace
    cases d with
    | succ d =>
      rw [if_neg (by omega)]
      exact ⟨_, rfl, rfl, hline, ⟨by simp [hd], front, by simp, hprelude, hopened, pos, hbegun⟩, hblocks, hissues,
        hstatements⟩
    | zero =>
      have hcutPrelude : slice t s.prelude.1 s.prelude.2 = .ok p := by
        rw [hprelude]
        exact slice_eq_ok_iff.2 ⟨front, '{' :: seen.reverse ++ v, by simp [ht], rfl, rfl⟩
      have hcutBody : slice t s.opened.1 (byteSize (front ++ p ++ '{' :: seen.reverse)) = .ok seen.reverse := by
        rw [hopened]
        exact slice_eq_ok_iff.2 ⟨front ++ p ++ ['{'], v, by simp [ht], rfl, by simp⟩
      rw [if_pos (by omega), hcutPrelude, hcutBody]
      refine ⟨_, rfl, rfl, hline, ⟨by simp [hd], rfl⟩, ?_, hissues, hstatements⟩
      simp [hblocks, hbegun, hopened]

/-! ## One character -/

section
variable {t u v : Text} {s s' : St} {m : Block.St}

theorem At.bytes_eq (h : At t u v s m) : (loop t).bytes = Text.bytes (u ++ v) := congrArg Text.bytes h.parts

theorem At.head {c : Char} (h : At t u (c :: v) s m) : (loop t).bytes[byteSize u]? = some (byte c) :=
  Loop.head_eq h.bytes_eq

/-- where something has begun, a high byte does nothing -/
theorem body_high (hquote : s.quote = m.quoting.quote.map byte) (hproper : m.quoting.Proper)
    (hplace : Stands u s m.place) (hbegun : m.place ≠ .between) (i : Nat) {b : UInt8} (hb : High b) :
    body t i b s = .ok (i + 1, s) := by
  have hne {c : Char} (hc : c.toNat < 0x80) : b ≠ byte c := ne_byte_of_high hb hc
  unfold body
  rw [hquote]
  cases hq : m.quoting.quote with
  | some d =>
    have hd : d.toNat < 0x80 := ascii_of_quote (hproper d hq)
    simp only [Option.map_some, quotedBody]
    rw [if_neg (hne (by decide)), if_neg (hne (by decide)), if_neg (hne hd)]
  | none =>
    simp only [Option.map_none, codeBody]
    rw [if_neg (hne (by decide)), if_neg (hne (by decide)), isQuoteByte_high hb, if_neg Bool.false_ne_true,
      if_neg (hne (by decide)), if_neg fun h => hne (by decide) h.1, if_neg (hne (by decide)),
      if_neg fun h => hne (by decide) h.1, isBlankByte_high hb, if_neg Bool.false_ne_true, hplace.begin_eq hbegun]

/-- what both have found once a character has been collected -/
theorem Holds.keep {c : Char} (h : Holds u s m) (hmark : ∀ k ∈ Mark.ofChar? m.quoting c, k = .cut)
    (hplace : Stands (u ++ [c]) s' (m.place.keep m.line c)) (hline : s'.line = s.line + newlines [c])
    (hissues : s'.issues = s.issues ++ cuts m.line m.quoting [c]) (hblocks : s'.blocks = s.blocks)
    (hstatements : s'.statements = s.statements) : Holds (u ++ [c]) s' (Block.step m c) := by
  obtain ⟨q, line, place, blocks, issues, n⟩ := m
  rw [Block.step_keep line n blocks issues hmark]
  refine ⟨by rw [hline, h.line], hplace, by rw [hblocks, h.blocks], ?_, by rw [hstatements, h.statements]⟩
  rw [hissues, h.issues, List.reverse_append, List.reverse_reverse]

/-- the mark of a character in code decides what it does; line and quote aside -/
theorem Holds.mark {c : Char} {m' : Block.St} (h : Holds u s m') (hact : Block.act m c = m') (hline : m'.line = m.line)
    (hc : c ≠ '\n') : Holds u s (Block.step m c) := by
  unfold Block.step
  rw [hact, if_neg hc, ← hline]
  exact ⟨h.line, h.place, h.blocks, h.issues, h.statements⟩

theorem depth_eq_zero_iff (h : Stands u s m.place) : s.depth = 0 ↔ ∀ p l o d seen, m.place ≠ .within p l o d seen := by
  cases hp : m.place with
  | between => rw [hp] at h; simp [h.1]
  | before l seen => rw [hp] at h; simp [h.1]
  | within p l o d seen => rw [hp] at h; simp [h.1]

/-- a closing brace where no block is open -/
theorem Holds.stray (h : Holds u s m) (hdepth : s.depth = 0) :
    Holds (u ++ ['}']) { s with issues := s.issues ++ [⟨.strayCloseBrace, s.line⟩], begun := none }
      (Block.closeBrace m) := by
  have hnot := (depth_eq_zero_iff h.place).1 hdepth
  have hclose : Block.closeBrace m =
      { m with place := .between, issues := ⟨.strayCloseBrace, m.line⟩ :: m.issues } := by
    unfold Block.closeBrace
    split
    · rename_i hp
      exact (hnot _ _ _ _ _ hp).elim
    · rename_i hp
      exact (hnot _ _ _ _ _ hp).elim
    · rfl
  rw [hclose]
  exact ⟨h.line, ⟨hdepth, rfl⟩, h.blocks, by simp [h.issues, h.line], h.statements⟩

/-- a semicolon where no block is open -/
theorem Holds.semicolon (h : Holds u s m) (hdepth : s.depth = 0) :
    Holds (u ++ [';']) { s with statements := s.statements + s.begun.elim 0 fun _ => 1, begun := none }
      (Block.semicolon m) := by
  obtain ⟨hline, hplace, hblocks, hissues, hstatements⟩ := h
  unfold Block.semicolon
  cases hp : m.place with
  | between =>
    rw [hp] at hplace
    refine ⟨hline, ?_, hblocks, hissues, ?_⟩
    · show Stands _ _ m.place
      rw [hp]
      exact ⟨hdepth, rfl⟩
    · simp [hstatements, hplace.2]
  | before l seen =>
    rw [hp] at hplace
    obtain ⟨-, front, -, hbegun⟩ := hplace
    exact ⟨hline, ⟨hdepth, rfl⟩, hblocks, hissues, by simp [hstatements, hbegun]⟩
  | within p l o d seen => exact ((depth_eq_zero_iff hplace).1 hdepth _ _ _ _ _ hp).elim

/-- a visible character without a mark begins something, or is collected -/
theorem Holds.visible {c : Char} (h : Holds u s m) (hmark : Mark.ofChar? m.quoting c = none)
    (hblank : isAsciiBlank c = false) (hn : c ≠ '\n') (q : Option UInt8) :
    Holds (u ++ [c]) { begin (byteSize u) s with quote := q } (Block.step m c) ∧ (Block.step m c).place ≠ .between := by
  obtain ⟨hplace, hne⟩ := h.place.begin hblank
  rw [h.line] at hplace hne
  exact ⟨h.keep (by simp [hmark]) hplace (by simp [begin, newlines, hn]) (by simp [begin, cuts, hmark]) rfl rfl,
    by rwa [Block.place_step hmark]⟩

/-- an opening brace in code -/
theorem codeBody_opens (h : Holds u s m) (hcode : m.quoting = code) :
    ∃ s', codeBody t (byteSize u) (byte '{') s = .ok (byteSize u + 1, s') ∧ s'.quote = s.quote ∧
      Holds (u ++ ['{']) s' (Block.step m '{') := by
  have hact : Block.act m '{' = Block.openBrace m := by rw [Block.act_eq, hcode]; rfl
  refine ⟨openBrace (byteSize u) s, rfl, ?_, h.openBrace.mark hact rfl (by decide)⟩
  unfold openBrace
  split <;> rfl

/-- a closing brace in code -/
theorem codeBody_closes (h : Holds u s m) (ht : t = u ++ v) (hcode : m.quoting = code) :
    ∃ s', codeBody t (byteSize u) (byte '}') s = .ok (byteSize u + 1, s') ∧ s'.quote = s.quote ∧
      Holds (u ++ ['}']) s' (Block.step m '}') := by
  have hbody : codeBody t (byteSize u) (byte '}') s =
      if byte '}' = byte '}' ∧ s.depth = 0 then
        .ok (byteSize u + 1, { s with issues := s.issues ++ [⟨.strayCloseBrace, s.line⟩], begun := none })
      else (closeBrace t (byteSize u) s).map (byteSize u + 1, ·) := rfl
  have hact : Block.act m '}' = Block.closeBrace m := by rw [Block.act_eq, hcode]; rfl
  have hline : (Block.closeBrace m).line = m.line := by unfold Block.closeBrace; split <;> rfl
  by_cases hdepth : s.depth = 0
  · rw [hbody, if_pos ⟨rfl, hdepth⟩]
    exact ⟨_, rfl, rfl, (h.stray hdepth).mark hact hline (by decide)⟩
  · obtain ⟨s', hs', hquote, hholds⟩ := h.closeBrace ht hdepth
    rw [hbody, if_neg fun h => hdepth h.2, hs']
    exact ⟨s', rfl, hquote, hholds.mark hact hline (by decide)⟩

/-- a semicolon in code; in a block it is collected like any other character -/
theorem codeBody_ends (h : Holds u s m) (hcode : m.quoting = code) :
    ∃ s', codeBody t (byteSize u) (byte ';') s = .ok (byteSize u + 1, s') ∧ s'.quote = s.quote ∧
      Holds (u ++ [';']) s' (Block.step m ';') := by
  have hbody : codeBody t (byteSize u) (byte ';') s =
      if byte ';' = byte ';' ∧ s.depth = 0 then
        .ok (byteSize u + 1, { s with statements := s.statements + s.begun.elim 0 fun _ => 1, begun := none })
      else .ok (byteSize u + 1, begin (byteSize u) s) := rfl
  have hact : Block.act m ';' = Block.semicolon m := by rw [Block.act_eq, hcode]; rfl
  by_cases hdepth : s.depth = 0
  · have hline : (Block.semicolon m).line = m.line := by unfold Block.semicolon; split <;> rfl
    rw [hbody, if_pos ⟨rfl, hdepth⟩]
    exact ⟨_, rfl, rfl, (h.semicolon hdepth).mark hact hline (by decide)⟩
  · have hinside : Block.semicolon m = { m with place := m.place.keep m.line ';' } := by
      unfold Block.semicolon
      cases hp : m.place with
      | within p l o d seen => rfl
      | between | before l seen => exact absurd ((depth_eq_zero_iff h.place).2 (by simp [hp])) hdepth
    obtain ⟨hplace, -⟩ := h.place.begin (c := ';') (by decide)
    rw [h.line] at hplace
    have hkept : Holds (u ++ [';']) (begin (byteSize u) s) { m with place := m.place.keep m.line ';' } :=
      ⟨h.line, hplace, h.blocks, h.issues, h.statements⟩
    rw [hbody, if_neg fun h => hdepth h.2]
    exact ⟨_, rfl, rfl, hkept.mark (hact.trans hinside) rfl (by decide)⟩

/-- **A character in code** that hides nothing. -/
theorem codeBody_char {c : Char} (h : Holds u s m) (ht : t = u ++ v) (hcode : m.quoting = code) (hc : c ≠ '\\')
    (hquote : s.quote = none) :
    ∃ s', codeBody t (byteSize u) (byte c) s = .ok (byteSize u + 1, s') ∧
      s'.quote = (code.next c).quote.map byte ∧ Holds (u ++ [c]) s' (Block.step m c) ∧
      (isQuote c = true ∨ 0x80 ≤ c.toNat → (Block.step m c).place ≠ .between) := by
  have hmarked {d : Char} (hd : isQuote d = false ∧ d.toNat < 0x80 ∧ d ≠ '\\')
      (hbody : ∃ s', codeBody t (byteSize u) (byte d) s = .ok (byteSize u + 1, s') ∧ s'.quote = s.quote ∧
        Holds (u ++ [d]) s' (Block.step m d)) :
      ∃ s', codeBody t (byteSize u) (byte d) s = .ok (byteSize u + 1, s') ∧
        s'.quote = (code.next d).quote.map byte ∧ Holds (u ++ [d]) s' (Block.step m d) ∧
        (isQuote d = true ∨ 0x80 ≤ d.toNat → (Block.step m d).place ≠ .between) := by
    obtain ⟨s', hs', hquote', hholds⟩ := hbody
    obtain ⟨hq, hascii, hd⟩ := hd
    refine ⟨s', hs', by simp [hquote', hquote, next, code, hd, hq], hholds, ?_⟩
    rintro (hor | hor)
    · rw [hq] at hor
      cases hor
    · omega
  by_cases hopen : c = '{'
  · exact hopen ▸ hmarked (by decide) (codeBody_opens h hcode)
  by_cases hclose : c = '}'
  · exact hclose ▸ hmarked (by decide) (codeBody_closes h ht hcode)
  by_cases hends : c = ';'
  · exact hends ▸ hmarked (by decide) (codeBody_ends h hcode)
  have hbyte {d : Char} (hd : d.toNat < 0x80) : byte c = byte d ↔ c = d := byte_eq_iff hd
  have hmark : Mark.ofChar? m.quoting c = none := by
    simp [hcode, Mark.ofChar?, code, isCutBy, hopen, hclose, hends]
  have hbody : codeBody t (byteSize u) (byte c) s =
      if c = '\n' then .ok (byteSize u + 1, { s with line := s.line + 1 })
      else if isQuote c then .ok (byteSize u + 1, { begin (byteSize u) s with quote := some (byte c) })
      else if isAsciiBlank c then .ok (byteSize u + 1, s)
      else .ok (byteSize u + 1, begin (byteSize u) s) := by
    simp [codeBody, hbyte (d := '\n') (by decide), hbyte (d := '\\') (by decide), hbyte (d := '{') (by decide),
      hbyte (d := '}') (by decide), hbyte (d := ';') (by decide), hc, hopen, hclose, hends]
  have hcuts : cuts m.line m.quoting [c] = [] := by simp [cuts, hmark]
  rw [hbody]
  by_cases hn : c = '\n'
  · subst hn
    rw [if_pos rfl]
    exact ⟨_, rfl, hquote, h.keep (by simp [hmark]) (h.place.keep (fun _ => by decide) m.line) rfl (by simp [hcuts]) rfl
      rfl, fun h => absurd h (by decide)⟩
  rw [if_neg hn]
  by_cases hq : isQuote c = true
  · have hnext : (code.next c).quote = some c := by simp [next, code, hc, hq]
    have hblank : isAsciiBlank c = false := by rcases isQuote_iff.1 hq with rfl | rfl <;> decide
    obtain ⟨hholds, hne⟩ := h.visible hmark hblank hn (some (byte c))
    rw [if_pos hq, hnext]
    exact ⟨_, rfl, rfl, hholds, fun _ => hne⟩
  have hnext : (code.next c).quote.map byte = none := by simp [next, code, hc, hq]
  rw [if_neg hq, hnext]
  by_cases hblank : isAsciiBlank c = true
  · rw [if_pos hblank]
    refine ⟨s, rfl, hquote, h.keep (by simp [hmark]) (h.place.keep (fun _ => hblank) m.line) (by simp [newlines, hn])
      (by simp [hcuts]) rfl rfl, ?_⟩
    rintro (hor | hbeyond)
    · exact absurd hor hq
    · rw [isAsciiBlank_beyond hbeyond] at hblank
      cases hblank
  · obtain ⟨hholds, hne⟩ := h.visible hmark (by simpa using hblank) hn s.quote
    rw [if_neg hblank]
    exact ⟨_, rfl, hquote, hholds, fun _ => hne⟩

/-- **A character in a literal** that hides nothing. -/
theorem quotedBody_char {c q : Char} (h : Holds u s m) (hquoting : m.quoting = ⟨some q, false⟩) (hq : isQuote q = true)
    (hplace : m.place ≠ .between) (hc : c ≠ '\\') (hquote : s.quote = some (byte q)) :
    ∃ s', quotedBody t (byteSize u) (byte c) (byte q) s = .ok (byteSize u + 1, s') ∧
      s'.quote = (m.quoting.next c).quote.map byte ∧ Holds (u ++ [c]) s' (Block.step m c) ∧
      (Block.step m c).place ≠ .between := by
  have hbyte {d : Char} (hd : d.toNat < 0x80) (hne : c ≠ d) : byte c ≠ byte d := fun he => hne ((byte_eq_iff hd).1 he)
  have hmark : Mark.ofChar? m.quoting c = if c = '\n' then some .cut else none := by
    simp [hquoting, Mark.ofChar?, isCode, isCutBy]
  have hcuts : cuts m.line m.quoting [c] = if c = '\n' then [⟨.unterminatedString, m.line⟩] else [] := by
    simp only [cuts, hmark, List.append_nil]
    by_cases hn : c = '\n'
    · rw [if_pos hn, if_pos hn, if_pos rfl]
    · rw [if_neg hn, if_neg hn, if_neg (by simp)]
  have hcut : ∀ k ∈ Mark.ofChar? m.quoting c, k = .cut := by
    rw [hmark]
    split <;> simp
  have hnext : (m.quoting.next c).quote = if c = q ∨ c = '\n' then none else some q := by
    rw [hquoting]
    simp only [next, Bool.false_eq_true, if_false, if_neg hc]
    split <;> rfl
  have hstands : Stands (u ++ [c]) s (m.place.keep m.line c) := h.place.keep (fun hp => absurd hp hplace) m.line
  have hkept : (Block.step m c).place ≠ .between := by
    have hp : (Block.step m c).place = m.place.keep m.line c := by
      obtain ⟨k, line, place, blocks, issues, n⟩ := m
      rw [Block.step_keep line n blocks issues hcut]
    rw [hp]
    exact keep_ne_between (Or.inl hplace) m.line
  unfold quotedBody
  rw [if_neg (hbyte (by decide) hc)]
  by_cases hn : c = '\n'
  · rw [if_pos (congrArg byte hn)]
    rw [if_pos (Or.inr hn)] at hnext
    rw [if_pos hn] at hcuts
    exact ⟨_, rfl, by rw [hnext]; rfl, h.keep hcut hstands (by simp [newlines, hn]) (by rw [hcuts, h.line]) rfl rfl,
      hkept⟩
  rw [if_neg (hbyte (by decide) hn)]
  have hline : s.line = s.line + newlines [c] := by simp [newlines, hn]
  have hissues : s.issues = s.issues ++ cuts m.line m.quoting [c] := by rw [hcuts, if_neg hn, List.append_nil]
  by_cases hd : c = q
  · rw [if_pos (Or.inl hd)] at hnext
    rw [if_pos (congrArg byte hd)]
    exact ⟨_, rfl, by rw [hnext]; rfl, h.keep hcut hstands hline hissues rfl rfl, hkept⟩
  · rw [if_neg (not_or.2 ⟨hd, hn⟩)] at hnext
    rw [if_neg (hbyte (ascii_of_quote hq) hd)]
    exact ⟨s, rfl, by rw [hnext, hquote]; rfl, h.keep hcut hstands hline hissues rfl rfl, hkept⟩

/-- **One character** that hides nothing. -/
theorem At.char {c : Char} (h : At t u (c :: v) s m) (hc : c ≠ '\\') :
    ∃ s', body t (byteSize u) (byte c) s = .ok (byteSize u + 1, s') ∧
      (loop t).Leads (byteSize u) s (byteSize (u ++ [c])) s' ∧ At t (u ++ [c]) v s' (Block.step m c) := by
  have hparts : t = u ++ [c] ++ v := by rw [h.parts, List.append_cons]
  have hplain : (m.quoting.next c).escaped = false := next_of_not_escaped h.plain hc
  obtain ⟨s', hbody, hquote, hholds, hbegun⟩ : ∃ s', body t (byteSize u) (byte c) s = .ok (byteSize u + 1, s') ∧
      s'.quote = (m.quoting.next c).quote.map byte ∧ Holds (u ++ [c]) s' (Block.step m c) ∧
      ((m.quoting.next c).quote ≠ none ∨ 0x80 ≤ c.toNat → (Block.step m c).place ≠ .between) := by
    unfold body
    cases hq : m.quoting.quote with
    | none =>
      have hcode : m.quoting = code := (Quoting.isCode_iff _).1 (by simp [isCode, hq, h.plain])
      have hnone : s.quote = none := by rw [h.quote, hq]; rfl
      obtain ⟨s', hbody, hquote, hholds, hbegun⟩ := codeBody_char h.holds h.parts hcode hc hnone
      rw [hnone, hcode]
      refine ⟨s', hbody, hquote, hholds, fun hor => hbegun (hor.imp_left fun hnext => ?_)⟩
      by_contra hquote
      exact hnext (by simp [next, code, hc, hquote])
    | some q =>
      have hquoting : m.quoting = ⟨some q, false⟩ := by rw [← hq, ← h.plain]
      have hsome : s.quote = some (byte q) := by rw [h.quote, hq]; rfl
      obtain ⟨s', hbody, hquote, hholds, hbegun⟩ :=
        quotedBody_char (t := t) h.holds hquoting (h.proper q hq) (h.begun (by simp [hq])) hc hsome
      rw [hsome]
      exact ⟨s', hbody, hquote, hholds, fun _ => hbegun⟩
  refine ⟨s', hbody, Loop.leads_char h.bytes_eq hbody fun hhigh i b hb => ?_,
    ⟨hparts, hholds, hquote, h.proper.next c, hplain, fun hne => hbegun (Or.inl hne)⟩⟩
  exact body_high hquote (h.proper.next c) hholds.place (hbegun (Or.inr hhigh)) i hb

/-- a backslash begins something, or is collected, and hides a whole character, if there is one -/
theorem body_backslash (h : At t u ('\\' :: v) s m) :
    body t (byteSize u) (byte '\\') s =
      .ok (byteSize u + 1 + v.head?.elim 0 Char.utf8Size,
        { begin (byteSize u) s with line := s.line + newlines v.head?.toList }) := by
  have hparts : t = u ++ ['\\'] ++ v := by rw [h.parts, List.append_cons]
  have hsize : byteSize u + 1 = byteSize (u ++ ['\\']) := by
    rw [byteSize_append]
    rfl
  have hrest : sliceFrom t (byteSize u + 1) = .ok v := by rw [hparts, hsize, sliceFrom_parts]
  have hnewline : (bytes t)[byteSize u + 1]? = v.head?.map byte := by rw [hparts, hsize, getElem?_bytes]
  have hescape (s₁ : St) : escape t (byteSize u) s₁ =
      .ok (byteSize u + 1 + v.head?.elim 0 Char.utf8Size, { s₁ with line := s₁.line + newlines v.head?.toList }) := by
    unfold escape escapeEnd
    rw [hrest, hnewline]
    cases v with
    | nil => rfl
    | cons c v =>
      by_cases hn : c = '\n'
      · subst hn
        rfl
      · have hne : byte c ≠ byte '\n' := fun he => hn ((byte_eq_iff (by decide)).1 he)
        simp [hne, newlines, hn, bind, Except.bind, pure, Except.pure]
  unfold body
  cases hq : m.quoting.quote with
  | none =>
    rw [h.quote, hq]
    show codeBody t (byteSize u) (byte '\\') s = _
    unfold codeBody
    rw [if_neg (by decide), if_pos rfl, hescape]
    rfl
  | some q =>
    rw [h.quote, hq]
    show quotedBody t (byteSize u) (byte '\\') (byte q) s = _
    unfold quotedBody
    rw [if_pos rfl, hescape, h.holds.place.begin_eq (h.begun (by simp [hq]))]

theorem Holds.backslash (h : Holds u s m) :
    Holds (u ++ ['\\']) (begin (byteSize u) s) (Block.step m '\\') ∧ (Block.step m '\\').place ≠ .between := by
  have hmark : Mark.ofChar? m.quoting '\\' = none := by simp [Mark.ofChar?, isCutBy]
  obtain ⟨hplace, hne⟩ := h.place.begin (c := '\\') (by decide)
  rw [h.line] at hplace hne
  exact ⟨h.keep (by simp [hmark]) hplace (by simp [begin, newlines]) (by simp [begin, cuts, hmark]) rfl rfl,
    by rwa [Block.place_step hmark]⟩

/-- **A backslash hides exactly the character behind it.** -/
theorem At.escape {c : Char} (h : At t u ('\\' :: c :: v) s m) :
    ∃ s', body t (byteSize u) (byte '\\') s = .ok (byteSize (u ++ ['\\', c]), s') ∧
      At t (u ++ ['\\', c]) v s' (Block.run m ['\\', c]) := by
  obtain ⟨hholds, hne⟩ := h.holds.backslash
  have hquoting : (Block.step m '\\').quoting = ⟨m.quoting.quote, true⟩ := by
    show m.quoting.next '\\' = _
    simp [next, h.plain]
  have hnext : (Block.run m ['\\', c]).quoting = m.quoting := by
    show (Block.step m '\\').quoting.next c = _
    rw [hquoting]
    show (⟨m.quoting.quote, false⟩ : Quoting) = m.quoting
    rw [← h.plain]
  have hmark : Mark.ofChar? (Block.step m '\\').quoting c = none := by
    rw [hquoting]
    simp [Mark.ofChar?, isCode, isCutBy]
  have hsize : byteSize u + 1 + c.utf8Size = byteSize (u ++ ['\\', c]) := by
    simp [show '\\'.utf8Size = 1 by decide, Nat.add_assoc]
  have hholds' : Holds (u ++ ['\\'] ++ [c]) { begin (byteSize u) s with line := s.line + newlines [c] }
      (Block.run m ['\\', c]) :=
    hholds.keep (by simp [hmark]) (hholds.place.keep (fun hp => absurd hp hne) (Block.step m '\\').line) rfl
      (by simp [cuts, hmark]) rfl rfl
  rw [List.append_assoc] at hholds'
  refine ⟨_, (body_backslash h).trans (by rw [← hsize]; rfl), by simp [h.parts], hholds', ?_, ?_, ?_, fun _ => ?_⟩
  · rw [hnext]
    exact h.quote
  · rw [hnext]
    exact h.proper
  · rw [hnext]
    exact h.plain
  · have hplace : (Block.run m ['\\', c]).place = (Block.step m '\\').place.keep (Block.step m '\\').line c :=
      Block.place_step hmark
    rw [hplace]
    exact keep_ne_between (Or.inl hne) _

/-- **At the end of a text, what both have found is the same.** -/
theorem Holds.finish (h : Holds t s m) : finish t s = .ok m.finish := by
  obtain ⟨-, hplace, hblocks, hissues, hstatements⟩ := h
  unfold Scan.finish Block.St.finish
  cases hp : m.place with
  | between =>
    rw [hp] at hplace
    rw [if_neg (by simp [hplace.1]), hplace.2, hblocks, hissues, hstatements]
  | within p l o d seen =>
    rw [hp] at hplace
    obtain ⟨hdepth, front, -, -, hopened, -⟩ := hplace
    rw [if_pos (by omega), hblocks, hissues, hstatements, hdepth, hopened]
  | before l seen =>
    rw [hp] at hplace
    obtain ⟨hdepth, front, rfl, hbegun⟩ := hplace
    have htrim : (trim seen.reverse).isEmpty = seen.all isBlank := by
      rw [Bool.eq_iff_iff, List.isEmpty_iff, trim_eq_nil_iff, List.all_eq_true]
      simp [Blank]
    rw [if_neg (by simp [hdepth]), hbegun, hblocks, hissues, hstatements]
    simp only [sliceFrom_parts]
    split
    · show Except.ok _ = _
      rw [htrim]
    · rename_i hsize
      cases seen with
      | nil => rfl
      | cons c seen =>
        have hpos := c.utf8Size_pos
        simp only [byteSize_append, byteSize_reverse, byteSize_cons] at hsize
        omega

/-! ## Part after part -/

/-- in front of `v`, the loop will give what the reader of characters gives, and pass over every character in the quote
that this reader is in -/
structure Follows (t u v : Text) (s : St) (m : Block.St) : Prop where
  result : ((loop t).run (byteSize u) s >>= finish t) = .ok (Block.run m v).finish
  passes : (loop t).Passes St.quote u v s fun a => (m.quoting.run a).quote.map byte

theorem quoting_run (m : Block.St) (w : Text) : (Block.run m w).quoting = m.quoting.run w := by
  induction w generalizing m with
  | nil => rfl
  | cons c w ih => exact ih (Block.step m c)

/-- **One part more.** -/
theorem Follows.part {w : Text} (hleads : (loop t).Leads (byteSize u) s (byteSize (u ++ w)) s')
    (hpasses : (loop t).Passes St.quote u w s fun a => (m.quoting.run a).quote.map byte)
    (h : Follows t (u ++ w) v s' (Block.run m w)) : Follows t u (w ++ v) s m := by
  refine ⟨by rw [hleads.run_eq, h.result, Block.run_append], hpasses.part hleads (fun x _ => ?_) h.passes⟩
  rw [quoting_run, Quoting.run_append]

/-- **In front of every part, the loop does what the reader of characters does.** -/
theorem follows (h : At t u v s m) : Follows t u v s m := by
  induction v using escape_induction generalizing u s m with
  | nil =>
    obtain rfl : t = u := by rw [h.parts, List.append_nil]
    refine ⟨?_, Loop.passes_nil⟩
    rw [Loop.run_of_le (length_bytes t).le]
    exact h.holds.finish
  | lone =>
    have hbody := body_backslash h
    obtain ⟨hholds, -⟩ := h.holds.backslash
    rw [← h.parts] at hholds
    have hsize : (loop t).bytes.length ≤ byteSize u + 1 + ([] : Text).head?.elim 0 Char.utf8Size := by
      show (bytes t).length ≤ _
      rw [length_bytes, h.parts, byteSize_append]
      exact Nat.add_le_add_left (by decide) _
    refine ⟨?_, Loop.passes_step h.head hbody fun a c b hparts => ?_⟩
    · rw [Loop.run_step h.head hbody, Loop.run_of_le hsize]
      exact hholds.finish
    · obtain rfl := eq_nil_of_singleton hparts
      exact ⟨by simp, h.quote⟩
  | escape c v ih =>
    obtain ⟨s', hbody, hat⟩ := h.escape
    refine Follows.part (w := ['\\', c]) (.one h.head hbody)
      (Loop.passes_step h.head hbody fun a d b hparts => ⟨Loop.size_lt_of_part hparts, ?_⟩) (ih hat)
    cases a with
    | nil => exact h.quote
    | cons e a =>
      obtain ⟨rfl, hrest⟩ := List.cons.inj hparts
      obtain rfl := eq_nil_of_singleton hrest
      refine h.quote.trans (congrArg (Option.map byte) ?_)
      simp [next, h.plain]
  | char c v hc ih =>
    obtain ⟨s', hbody, hleads, hat⟩ := h.char hc
    refine Follows.part (w := [c]) hleads (Loop.passes_step h.head hbody fun a d b hparts => ?_) (ih hat)
    obtain rfl := eq_nil_of_singleton hparts
    exact ⟨by simp, h.quote⟩

end

theorem at_start (line : Nat) (t : Text) : At t [] t (start line) (Block.start line) :=
  ⟨rfl, ⟨rfl, ⟨rfl, rfl⟩, rfl, rfl, rfl⟩, rfl, proper_code, rfl, fun h => absurd rfl h⟩

end Scan

/-- **The search over bytes never fails, and is that over characters.** -/
theorem scan_eq (line : Nat) (t : Text) : scan line t = .ok (Block.scan line t) :=
  (Scan.follows (Scan.at_start line t)).result

/-- **The search passes over every character in the quote that the reader of characters is in.** -/
theorem scannedIn?_eq (line : Nat) (a b : Text) (c : Char) :
    scannedIn? line (a ++ c :: b) (byteSize a) = some ((code.run a).quote.map byte) := by
  exact (Scan.follows (Scan.at_start line (a ++ c :: b))).passes a c b rfl

end Bytewise

end StyleCheck
