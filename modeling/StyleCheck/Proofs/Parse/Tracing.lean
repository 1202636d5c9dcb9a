/-
Which part of a text the body of a rule is.

Beside each step of a parse runs its ghost, which reads a `Trace` in place of a text and says which characters of the
original text come out of the step: of the removal of comments (`Comment.kept`), of the search for blocks
(`Block.bodies`) and of a whole parse (`Stylesheet.bodies`). The ghosts follow the places the machines are at and do
not decide anything themselves; that their characters are those of the real results is proved.
- `kept_spec`: the removal of comments drops no line feed, so it keeps everything on its line;
- `bodies_run`: a scan that counts line feeds opens a block on the line of its brace in the original text;
- `Located`: the rules that a text leads to, however deep, each with the part of the text that is its body;
- `located_of_reaches`, `traced_of_located`: each such rule has its part, and the line of its body is the line there.
-/
import Mathlib.Data.List.Forall2
import StyleCheck.Proofs.Parse.Nesting
import StyleCheck.Proofs.Text.Tracing

namespace StyleCheck

open Quoting Text Trace

/-! ## Comments -/

namespace Comment

/-- what a character lets through of itself and of the slash held back, and what is held back then -/
def pass (p : Place) (held : Trace) (s : Site) : Trace × Trace :=
  match p with
  | .text q => if q.isCode ∧ s.char = '/' then ([], [s]) else ([s], [])
  | .slash => if s.char = '*' then ([], []) else if s.char = '/' then (held, [s]) else (held ++ [s], [])
  | _ => if s.char = '\n' then ([s], []) else ([], [])

/-- what is kept of `w` from a state on that holds back `held` -/
def kept (st : St) (held : Trace) : Trace → Trace
  | [] => held
  | s :: w => (pass st.place held s).1 ++ kept (step st s.char) (pass st.place held s).2 w

theorem pass_spec {p : Place} {held : Trace} (h : text held = p.held) (line : Nat) (s : Site) :
    text (pass p held s).1 = (passed s.char p).reverse ∧ text (pass p held s).2 = (p.next line s.char).held ∧
    Keeps ((pass p held s).1 ++ (pass p held s).2) (held ++ [s]) := by
  cases p with
  | text q =>
    obtain rfl : held = [] := text_eq_nil.1 h
    unfold pass passed Place.next
    simp only
    split
    · rename_i hs
      exact ⟨rfl, by simp [Place.held, hs.2], .refl _⟩
    · exact ⟨rfl, rfl, .refl _⟩
  | slash =>
    have h : text held = ['/'] := h
    unfold pass passed Place.next
    simp only
    split_ifs with hstar hslash
    · obtain ⟨first, rfl, hfirst⟩ : ∃ first, held = [first] ∧ first.char = '/' := by
        simpa [text, List.map_eq_singleton_iff] using h
      exact ⟨rfl, rfl, .drop (by simp [hfirst]) (.drop (by simp [hstar]) .nil)⟩
    · exact ⟨by simpa using h, by simp [Place.held, hslash], .refl _⟩
    · exact ⟨by simp [h], by cases code.next s.char; rfl, by simpa using Keeps.refl _⟩
  | comment o =>
    obtain rfl : held = [] := text_eq_nil.1 h
    have hheld : ((Place.comment o).next line s.char).held = [] := by
      rw [Place.next]
      split <;> rfl
    unfold pass passed
    simp only
    split
    · exact ⟨rfl, hheld.symm, .refl _⟩
    · exact ⟨rfl, hheld.symm, .drop ‹_› .nil⟩
  | star o =>
    obtain rfl : held = [] := text_eq_nil.1 h
    have hheld : ((Place.star o).next line s.char).held = [] := by
      rw [Place.next]
      split_ifs <;> rfl
    unfold pass passed
    simp only
    split
    · exact ⟨rfl, hheld.symm, .refl _⟩
    · exact ⟨rfl, hheld.symm, .drop ‹_› .nil⟩

/-- **The removal of comments keeps what its ghost says, and drops no line feed.** -/
theorem kept_spec {st : St} {held : Trace} (h : text held = st.place.held) (w : Trace) :
    st.kept.reverse ++ text (kept st held w) = (run st (text w)).text ∧ Keeps (kept st held w) (held ++ w) := by
  induction w generalizing st held with
  | nil =>
    have hreverse : text held = (text held).reverse := by
      rw [h]
      cases st.place <;> rfl
    refine ⟨?_, by simpa [kept] using Keeps.refl held⟩
    show _ ++ text held = (st.place.held ++ st.kept).reverse
    rw [List.reverse_append, ← h, ← hreverse]
  | cons s w ih =>
    obtain ⟨hpassed, hheld, hkeeps⟩ := pass_spec h st.line s
    have hnext : text (pass st.place held s).2 = (step st s.char).place.held := hheld
    obtain ⟨htext, hrest⟩ := ih hnext
    constructor
    · rw [kept, text_append, hpassed, text_cons, run_cons, ← htext]
      simp [step]
    · have hparts := hkeeps.append (Keeps.refl w)
      rw [List.append_assoc, List.append_assoc, List.singleton_append] at hparts
      exact ((Keeps.refl _).append hrest).trans hparts

example : (kept (start 1) [] (ofText "a/*b\n*//c/**/".toList)).map (·.index) = [0, 4, 7, 8] := by decide

end Comment

/-! ## Blocks -/

namespace Block

/-- the bodies that end in `w`, read from a state on in whose block `seen` has been read, last character first -/
def bodies (s : St) (seen : Trace) : Trace → List Trace
  | [] => []
  | c :: w =>
    let next := step s c.char
    if s.place.depth = 0 then bodies next [] w
    else if next.place.depth = 0 then seen.reverse :: bodies next [] w
    else bodies next (c :: seen) w

/-- what one character does outside blocks -/
theorem act_outside {s : St} (h : s.place.depth = 0) (c : Char) :
    (act s c).blocks = s.blocks ∧
    ((act s c).place.depth = 0 ∨ c = '{' ∧ ∃ p l, (act s c).place = .within p l s.line 0 []) := by
  rw [act_eq]
  cases hm : Mark.ofChar? s.quoting c with
  | none => exact ⟨rfl, Or.inl ((depth_keep s.line c s.place).trans h)⟩
  | some m =>
    cases m with
    | opens =>
      refine ⟨rfl, Or.inr ⟨(ofChar?_some hm).2, ?_⟩⟩
      simp only [openBrace]
      rcases hp : s.place with _ | ⟨l, seen⟩ | ⟨p, l, o, d, seen⟩ <;> rw [hp] at h
      · exact ⟨_, _, rfl⟩
      · exact ⟨_, _, rfl⟩
      · cases h
    | closes =>
      simp only [closeBrace]
      rcases hp : s.place with _ | ⟨l, seen⟩ | ⟨p, l, o, d, seen⟩ <;> rw [hp] at h
      · exact ⟨rfl, Or.inl rfl⟩
      · exact ⟨rfl, Or.inl rfl⟩
      · cases h
    | ends =>
      simp only [semicolon]
      split
      · exact ⟨rfl, Or.inl h⟩
      · exact ⟨rfl, Or.inl rfl⟩
      · rename_i hp
        rw [hp] at h
        cases h
    | cut => exact ⟨rfl, Or.inl ((depth_keep s.line c s.place).trans h)⟩

/-- what one character does in a block: it is collected, or it closes the block -/
theorem act_within {s : St} {p seen : Text} {l o d : Nat} (h : s.place = .within p l o d seen) (c : Char) :
    ((act s c).blocks = s.blocks ∧ ∃ d', (act s c).place = .within p l o d' (c :: seen)) ∨
    ((act s c).blocks = ⟨p, seen.reverse, l, o⟩ :: s.blocks ∧ (act s c).place = .between) := by
  rw [act_eq]
  cases hm : Mark.ofChar? s.quoting c with
  | none => exact Or.inl ⟨rfl, d, by rw [h]; rfl⟩
  | some m =>
    cases m with
    | opens =>
      obtain ⟨-, rfl⟩ := ofChar?_some hm
      exact Or.inl ⟨rfl, d + 1, by simp only [openBrace, h]⟩
    | closes =>
      obtain ⟨-, rfl⟩ := ofChar?_some hm
      cases d with
      | zero => exact Or.inr (by simp [closeBrace, h])
      | succ d => exact Or.inl ⟨by simp only [closeBrace, h], d, by simp only [closeBrace, h]⟩
    | ends =>
      obtain ⟨-, rfl⟩ := ofChar?_some hm
      exact Or.inl ⟨by simp only [semicolon, h], d, by simp only [semicolon, h]⟩
    | cut => exact Or.inl ⟨rfl, d, by rw [h]; rfl⟩

/-- `w` is what is left to read of `t` in a state, and `seen` what has been read of the block we are in -/
structure Follows (t : Text) (s : St) (seen w : Trace) : Prop where
  reads : Reads t s.line w
  within : ∀ {p l o d body}, s.place = .within p l o d body → text seen = body ∧ Reads t o (seen.reverse ++ w)

/-- the rest is left to read in the next state -/
theorem Follows.next {t : Text} {s : St} {seen w : Trace} {c : Site} (h : Follows t s seen (c :: w)) :
    Reads t (step s c.char).line w := by
  have hline : (step s c.char).line = s.line + newlines [c.char] := line_next s.line c.char
  rw [hline]
  exact Reads.behind (a := [c]) h.reads

/-- a part of `t` is the body of a block, read from the line of its brace on -/
structure TracedBy (t : Text) (x : Trace) (b : Block) : Prop where
  text : Trace.text x = b.body
  reads : Reads t b.openLine x

section
variable {t : Text} {s : St} {seen w : Trace} {c : Site} (h : Follows t s seen (c :: w))
include h

/-- **Outside blocks, nothing has been read of a body**, also where a brace opens one. -/
theorem follows_outside (hdepth : s.place.depth = 0) :
    (step s c.char).blocks = s.blocks ∧ Follows t (step s c.char) [] w := by
  obtain ⟨hblocks, hopen⟩ := act_outside hdepth c.char
  refine ⟨hblocks, h.next, fun hwithin => ?_⟩
  have hplace : (act s c.char).place = _ := hwithin
  rcases hopen with hzero | ⟨hc, p, l, hp⟩
  · rw [hplace] at hzero
    cases hzero
  · rw [hp] at hplace
    cases hplace
    have hline : (step s c.char).line = s.line := by simp [step, hc]
    exact ⟨rfl, hline ▸ h.next⟩

/-- **In a block, a character belongs to its body or closes it.** -/
theorem follows_within (hdepth : s.place.depth ≠ 0) :
    ((step s c.char).place.depth ≠ 0 ∧ (step s c.char).blocks = s.blocks ∧ Follows t (step s c.char) (c :: seen) w) ∨
    ((step s c.char).place.depth = 0 ∧ Follows t (step s c.char) [] w ∧
      ∃ b, (step s c.char).blocks = b :: s.blocks ∧ TracedBy t seen.reverse b) := by
  obtain ⟨p, l, o, d, body, hp⟩ : ∃ p l o d body, s.place = .within p l o d body := by
    cases hp : s.place with
    | within p l o d body => exact ⟨p, l, o, d, body, rfl⟩
    | _ => exact absurd (by rw [hp]; rfl) hdepth
  obtain ⟨htext, hreads⟩ := h.within hp
  rcases act_within hp c.char with ⟨hblocks, d', hin⟩ | ⟨hblocks, hout⟩
  · have hplace : (step s c.char).place = .within p l o d' (c.char :: body) := hin
    refine Or.inl ⟨by simp [hplace, Place.depth], hblocks, h.next, fun hwithin => ?_⟩
    rw [hplace] at hwithin
    cases hwithin
    exact ⟨by rw [text_cons, htext], by simpa using hreads⟩
  · have hplace : (step s c.char).place = .between := hout
    refine Or.inr ⟨by rw [hplace]; rfl, ⟨h.next, fun hwithin => ?_⟩, _, hblocks, ?_⟩
    · rw [hplace] at hwithin
      cases hwithin
    · exact ⟨by rw [text_reverse, htext], hreads.front⟩

end

/-- **A scan finds the blocks whose bodies its ghost reads.** -/
theorem bodies_run {t : Text} {s : St} {seen w : Trace} (h : Follows t s seen w) :
    ∃ found, (run s (text w)).blocks = found ++ s.blocks ∧
      List.Forall₂ (TracedBy t) (bodies s seen w) found.reverse := by
  induction w generalizing s seen with
  | nil => exact ⟨[], rfl, .nil⟩
  | cons c w ih =>
    rw [text_cons, run_cons, bodies]
    split
    · rename_i hdepth
      obtain ⟨hblocks, hnext⟩ := follows_outside h hdepth
      exact hblocks ▸ ih hnext
    · rename_i hdepth
      rcases follows_within h hdepth with ⟨hin, hblocks, hnext⟩ | ⟨hout, hnext, b, hblocks, hb⟩
      · rw [if_neg hin]
        exact hblocks ▸ ih hnext
      · rw [if_pos hout]
        obtain ⟨found, hfound, htraced⟩ := ih hnext
        refine ⟨found ++ [b], by rw [hfound, hblocks, List.append_assoc]; rfl, ?_⟩
        rw [List.reverse_append]
        exact .cons hb htraced

/-- **The blocks of a text, and the parts of it that are their bodies.** -/
theorem bodies_scan {t : Text} {line : Nat} {w : Trace} (h : Reads t line w) :
    List.Forall₂ (TracedBy t) (bodies (start line) [] w) (scan line (text w)).blocks := by
  have hstart : Follows t (start line) [] w := ⟨h, fun hwithin => by cases hwithin⟩
  obtain ⟨found, hfound, htraced⟩ := bodies_run hstart
  have hblocks : (scan line (text w)).blocks = found.reverse := by
    show (run (start line) (text w)).blocks.reverse = _
    rw [hfound]
    simp [start]
  exact hblocks ▸ htraced

end Block

/-! ## Rules -/

/-- a part of `t` is the body of a rule, read from the line of the body on -/
structure Rule.TracedBy (t : Text) (r : Rule) (x : Trace) : Prop where
  text : Trace.text x = r.body
  visible : x ≠ []
  reads : Reads t r.bodyLine x

namespace Stylesheet

/-- the bodies of the rules that a parse of `w` gives, trimmed -/
def bodies (config : ParseConfig) (source : SourceId) (line : Nat) (w : Trace) : List Trace :=
  let kept := Comment.kept (Comment.start line) [] w
  ((Block.scan line (text kept)).blocks.zip (Block.bodies (Block.start line) [] kept)).filterMap fun p =>
    (p.1.toRule? config source 0).map fun _ => trimmed p.2

theorem bodyLine_of_toRule? {config : ParseConfig} {source : SourceId} {n : Nat} {b : Block} {r : Rule}
    (h : b.toRule? config source n = some r) : r.bodyLine = b.openLine + newlines (b.body.takeWhile isBlank) := by
  unfold Block.toRule? at h
  simp only at h
  split at h
  · cases h
  · cases h; rfl

/-- trimming the body of a block gives the body of its rule -/
theorem traced_toRule? {config : ParseConfig} {source : SourceId} {t : Text} {n : Nat} {x : Trace} {b : Block}
    {r : Rule} (hx : Block.TracedBy t x b) (h : b.toRule? config source n = some r) : r.TracedBy t (trimmed x) := by
  obtain ⟨-, -, hbody, hvisible, -⟩ := of_toRule? h
  have htext : text (trimmed x) = r.body := by rw [text_trimmed, hx.text, hbody]
  refine ⟨htext, fun hnil => hvisible (by rw [← htext, hnil]; rfl), ?_⟩
  rw [bodyLine_of_toRule? h, ← hx.text]
  exact hx.reads.trimmed

/-- the rules of blocks, and the trimmed parts that are their bodies -/
theorem traced_rulesOf (config : ParseConfig) (source : SourceId) {t : Text} {xs : List Trace} {blocks : List Block}
    (h : List.Forall₂ (Block.TracedBy t) xs blocks) (n : Nat) :
    List.Forall₂ (Rule.TracedBy t) (numbered n (rulesOf config source blocks))
      ((blocks.zip xs).filterMap fun p => (p.1.toRule? config source 0).map fun _ => trimmed p.2) := by
  induction h generalizing n with
  | nil => exact .nil
  | @cons x b xs blocks hb _ ih =>
    cases hr : b.toRule? config source 0 with
    | none =>
      rw [rulesOf, List.filterMap_cons_none hr, List.zip_cons_cons, List.filterMap_cons_none (by simp [hr])]
      exact ih n
    | some r =>
      rw [rulesOf, List.filterMap_cons_some hr, List.zip_cons_cons,
        List.filterMap_cons_some (b := trimmed x) (by simp [hr]), numbered_cons]
      obtain ⟨htext, hvisible, hreads⟩ := traced_toRule? hb hr
      exact .cons ⟨htext, hvisible, hreads⟩ (ih (n + 1))

/-- **The rules of a parse, and the parts of `t` that are their bodies**, where `t` is read from its own lines on. -/
theorem traced_parseAt {config : ParseConfig} (source : SourceId) {t : Text} {line : Nat} {w : Trace}
    (h : Reads t line w) (hsize : byteSize (text w) ≤ config.maxInputSize) :
    List.Forall₂ (Rule.TracedBy t) (parseAt config source line (text w)).rules (bodies config source line w) := by
  have hheld : text [] = (Comment.start line).place.held := rfl
  obtain ⟨htext, hkeeps⟩ := Comment.kept_spec hheld w
  have hkept : text (Comment.kept (Comment.start line) [] w) = (Comment.run (Comment.start line) (text w)).text := htext
  rw [(parseAt_of_size source line hsize).1, ← hkept]
  exact traced_rulesOf config source (Block.bodies_scan (hkeeps.reads h)) 0

/-- the rules of a parse of `body`, each with its own body in the trace `w` of `body` -/
def placed (config : ParseConfig) (source : SourceId) (line : Nat) (body : Text) (w : Trace) : List (Rule × Trace) :=
  (parseAt config source line body).rules.zip (bodies config source line w)

section
variable {config : ParseConfig} {source : SourceId} {t body : Text} {line : Nat} {w : Trace}

/-- these are all the rules of the parse -/
theorem rules_placed (h : Reads t line w) (hbody : text w = body) :
    (placed config source line body w).map Prod.fst = (parseAt config source line body).rules := by
  subst hbody
  unfold placed
  by_cases hsize : byteSize (text w) ≤ config.maxInputSize
  · exact List.map_fst_zip (traced_parseAt source h hsize).length_eq.le
  · have hnone : (parseAt config source line (text w)).rules = [] := by
      unfold parseAt
      rw [if_pos (by omega)]
    rw [hnone]
    rfl

/-- **The body of each is the part of `t` that it is placed at.** -/
theorem traced_of_mem_placed (h : Reads t line w) (hbody : text w = body) {r : Rule} {x : Trace}
    (hr : (r, x) ∈ placed config source line body w) : r.TracedBy t x := by
  subst hbody
  have hsize := size_of_mem_parseAt (List.of_mem_zip hr).1
  exact (List.forall₂_iff_zip.1 (traced_parseAt source h hsize)).2 hr

end

example : (placed {} ⟨0⟩ 1 "a\x7b b /*\n*/c \x7d".toList (ofText "a\x7b b /*\n*/c \x7d".toList)).map
    (fun p => (p.1.bodyLine, p.2.map Site.index)) = [(1, [3, 4, 7, 10])] := by decide +kernel

/-! ## Rules in bodies -/

/-- the rules that a text leads to, however deep, each with the part of the text that is its body -/
inductive Located (config inner : ParseConfig) (source : SourceId) (t : Text) : Rule → Trace → Prop where
  | rule {r : Rule} {x : Trace} : (r, x) ∈ placed config source 1 t (ofText t) → Located config inner source t r x
  | inner {r r' : Rule} {x x' : Trace} : Located config inner source t r x →
      (r', x') ∈ placed inner r.source r.bodyLine r.body x → Located config inner source t r' x'

variable {config inner : ParseConfig} {source : SourceId} {t : Text}

/-- **The body of a rule is the part of the text that it was located at**, on the line that the rule has for it. -/
theorem traced_of_located {r : Rule} {x : Trace} (h : Located config inner source t r x) : r.TracedBy t x := by
  induction h with
  | rule h => exact traced_of_mem_placed (reads_ofText t) (text_ofText t) h
  | inner _ h ih => exact traced_of_mem_placed ih.reads ih.text h

/-- **All rules that a text leads to are located.** -/
theorem located_of_reaches {r : Rule} (h : (parse config source t).Reaches inner r) :
    ∃ x, Located config inner source t r x := by
  induction h with
  | rule h =>
    unfold parse at h
    rw [← rules_placed (reads_ofText t) (text_ofText t)] at h
    obtain ⟨⟨r, x⟩, hmem, rfl⟩ := List.mem_map.1 h
    exact ⟨x, .rule hmem⟩
  | inner _ h ih =>
    obtain ⟨x, hx⟩ := ih
    have htraced := traced_of_located hx
    unfold parseBody at h
    rw [← rules_placed htraced.reads htraced.text] at h
    obtain ⟨⟨r', x'⟩, hmem, rfl⟩ := List.mem_map.1 h
    exact ⟨x', .inner hx hmem⟩

theorem reaches_of_located {r : Rule} {x : Trace} (h : Located config inner source t r x) :
    (parse config source t).Reaches inner r := by
  induction h with
  | rule h => exact .rule (List.of_mem_zip h).1
  | inner _ h ih => exact .inner ih (List.of_mem_zip h).1

end Stylesheet

end StyleCheck
