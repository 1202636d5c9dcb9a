/-
Lexing over bytes refines lexing over characters.

Five loops read the bytes of a stylesheet, cut texts out of it by position, and skip what a backslash hides: two of them
a whole character, the others two bytes, which may end inside a character. `lexing_refines` says that none of them ever
cuts out of range or inside a character, and that all give what the readers of characters give.
The removal of comments and the search for blocks read one after the other and skip differently. At every character that
the removal keeps both are in the same quote, as the reader of characters is in that of what it has kept so far
(`quoting_kept`).
-/
import StyleCheck.Proofs.Bytes.Blocks
import StyleCheck.Proofs.Bytes.Comments
import StyleCheck.Proofs.Bytes.Declarations
import StyleCheck.Proofs.Bytes.Variables
import StyleCheck.Proofs.Parse.Tracing

namespace StyleCheck

open Quoting Text Trace

namespace Comment

/-! ## What is kept, and how it is read -/

/-- all that is held back is one character -/
theorem mem_held {p : Place} {held a b : Trace} {s : Site} (hheld : text held = p.held) (h : held = a ++ s :: b) :
    a = [] ∧ s ∈ held := by
  have hcount := congrArg List.length hheld
  have hshort : p.held.length ≤ 1 := by cases p <;> simp [Place.held]
  rw [text, List.length_map, h, List.length_append, List.length_cons] at hcount
  exact ⟨List.length_eq_zero_iff.1 (by omega), by simp [h]⟩

/-- and it is read as code -/
theorem quoting_of_mem_held {p : Place} {held : Trace} {s : Site} (hheld : text held = p.held) (h : s ∈ held) :
    p.quoting = code := by
  have hne : p.held ≠ [] := by
    rw [← hheld]
    exact fun hnil => List.ne_nil_of_mem h (text_eq_nil.1 hnil)
  cases p <;> first | rfl | exact absurd rfl hne

/-- behind a slash that is held back, there is code as well -/
theorem run_held {st : St} (h : code.run st.kept.reverse = st.place.quoting) :
    code.run (st.kept.reverse ++ st.place.held) = st.place.quoting := by
  cases hp : st.place <;> rw [hp] at h <;> simp only [Place.held, Place.quoting, List.append_nil] at h ⊢
  case slash => rw [run_concat, h, next_slash]
  all_goals exact h

/-- what a character lets through was held back, or is the character itself, behind what was held back -/
theorem mem_pass {p : Place} {held a b : Trace} {s s' : Site} (hheld : text held = p.held)
    (h : (pass p held s).1 = a ++ s' :: b) : a = [] ∧ s' ∈ held ∨ a = held ∧ s' = s := by
  have hone {e : Site} {x : Trace} (hx : [e] = x ++ s' :: b) : x = [] ∧ s' = e := by
    cases x with
    | nil => exact ⟨rfl, (List.cons.inj hx).1.symm⟩
    | cons d x => simp at hx
  unfold pass at h
  cases p with
  | text q =>
    obtain rfl : held = [] := text_eq_nil.1 hheld
    simp only at h
    split at h
    · simp at h
    · exact .inr (hone h)
  | slash =>
    simp only at h
    split_ifs at h
    · simp at h
    · exact .inl (mem_held hheld h)
    · rcases List.append_eq_append_iff.1 h with ⟨x, ha, hx⟩ | ⟨x, hheld', hx⟩
      · obtain ⟨rfl, hs⟩ := hone hx
        exact .inr ⟨by simpa using ha, hs⟩
      · cases x with
        | nil => exact .inr ⟨by simpa using hheld'.symm, (List.cons.inj hx).1⟩
        | cons d x =>
          obtain ⟨rfl, -⟩ := List.cons.inj hx
          exact .inl (mem_held hheld hheld')
  | comment o | star o =>
    obtain rfl : held = [] := text_eq_nil.1 hheld
    simp only at h
    split at h
    · exact .inr (hone h)
    · simp at h

/-- only a slash in code is held back -/
theorem of_mem_held {p : Place} {held : Trace} {s s' : Site} (h : s' ∈ (pass p held s).2) :
    s' = s ∧ p.quoting = code := by
  unfold pass at h
  cases p with
  | text q =>
    simp only at h
    split at h
    · rename_i hslash
      exact ⟨List.mem_singleton.1 h, (isCode_iff q).1 hslash.1⟩
    · cases h
  | slash =>
    simp only at h
    split_ifs at h
    · cases h
    · exact ⟨List.mem_singleton.1 h, rfl⟩
    · cases h
  | comment o | star o =>
    simp only at h
    split at h <;> cases h

/-- **What is kept is read as the text it comes from is read**, from any part of it on. -/
theorem quoting_kept_from {line : Nat} {t u v : Text} {held a b : Trace} {s : Site} (ht : t = u ++ v)
    (hheld : text held = (run (start line) u).place.held)
    (hcode : ∀ s' ∈ held, (run (start line) (t.take s'.index)).place.quoting = code)
    (h : kept (run (start line) u) held ((v.zipIdx u.length).map fun (c, i) => ⟨c, i⟩) = a ++ s :: b) :
    (run (start line) (t.take s.index)).place.quoting = code.run ((run (start line) u).kept.reverse ++ text a) := by
  induction v generalizing u held a with
  | nil =>
    have hparts : held = a ++ s :: b := h
    obtain ⟨rfl, hs⟩ := mem_held hheld hparts
    rw [hcode s hs, text_nil, List.append_nil, quoting_text, quoting_of_mem_held hheld hs]
  | cons c v ih =>
    have hnext : run (start line) (u ++ [c]) = step (run (start line) u) c := run_append_singleton _ _ _
    have hfront : t.take u.length = u := by rw [ht, List.take_left]
    obtain ⟨hpassed, hheld', -⟩ := pass_spec hheld (run (start line) u).line ⟨c, u.length⟩
    rw [List.zipIdx_cons, List.map_cons, kept] at h
    have hbehind {x : Trace} (ha : a = (pass (run (start line) u).place held ⟨c, u.length⟩).1 ++ x)
        (hx : kept (step (run (start line) u) c) (pass (run (start line) u).place held ⟨c, u.length⟩).2
          ((v.zipIdx (u.length + 1)).map fun (c, i) => ⟨c, i⟩) = x ++ s :: b) :
        (run (start line) (t.take s.index)).place.quoting = code.run ((run (start line) u).kept.reverse ++ text a) := by
      have hrest := ih (u := u ++ [c]) (a := x) (by rw [ht, List.append_cons]) (hheld'.trans (by rw [hnext]; rfl))
        (fun s' hs' => by
          obtain ⟨rfl, hquoting⟩ := of_mem_held hs'
          rw [hfront]
          exact hquoting)
        (by rw [hnext, List.length_append]; exact hx)
      rw [hrest, hnext, ha, text_append, hpassed]
      simp [step]
    rcases List.append_eq_append_iff.1 h with ⟨x, ha, hx⟩ | ⟨x, hpass, hx⟩
    · exact hbehind ha hx
    · cases x with
      | nil => exact hbehind (x := []) (by simpa using hpass.symm) hx.symm
      | cons d x =>
        obtain ⟨rfl, -⟩ := List.cons.inj hx
        rcases mem_pass hheld hpass with ⟨rfl, hs⟩ | ⟨rfl, rfl⟩
        · rw [hcode s hs, text_nil, List.append_nil, quoting_text, quoting_of_mem_held hheld hs]
        · rw [hfront, hheld, run_held (quoting_text line u)]

/-- **What is kept is read as the text it comes from is read.** -/
theorem quoting_kept {line : Nat} {t : Text} {a b : Trace} {s : Site}
    (h : kept (start line) [] (ofText t) = a ++ s :: b) :
    (run (start line) (t.take s.index)).place.quoting = code.run (text a) :=
  quoting_kept_from (u := []) (List.nil_append t).symm rfl (by simp) h

end Comment

namespace Bytewise

/-- a character stands at its index -/
theorem parts_of_mem_ofText {t : Text} {s : Site} (h : s ∈ ofText t) : ∃ b, t = t.take s.index ++ s.char :: b := by
  obtain ⟨⟨c, i⟩, hmem, rfl⟩ := List.mem_map.1 h
  obtain ⟨hi, rfl⟩ := List.getElem?_eq_some_iff.1 (List.mk_mem_zipIdx_iff_getElem?.1 hmem)
  exact ⟨t.drop (i + 1), by rw [List.cons_getElem_drop_succ, List.take_append_drop]⟩

/-- **The removal of comments and the search for blocks pass over what is kept in the same quote.** -/
theorem quotes_agree {line : Nat} {t : Text} {a b : Trace} {s : Site}
    (h : Comment.kept (Comment.start line) [] (ofText t) = a ++ s :: b) :
    ∃ q, strippedIn? line t (byteSize (t.take s.index)) = some q ∧
      scannedIn? line (text (a ++ s :: b)) (byteSize (text a)) = some q := by
  obtain ⟨-, hkeeps⟩ := @Comment.kept_spec (Comment.start line) [] rfl (ofText t)
  have hmem : s ∈ ofText t := hkeeps.sublist.subset (by rw [h]; simp)
  obtain ⟨behind, hparts⟩ := parts_of_mem_ofText hmem
  have hstripped := strippedIn?_eq line (t.take s.index) behind s.char
  have hscanned := scannedIn?_eq line (text a) (text b) s.char
  rw [← hparts, Comment.quoting_kept h] at hstripped
  exact ⟨_, hstripped, by rw [text_append]; exact hscanned⟩

/-- **Lexing over bytes refines lexing over characters**: no loop cuts out of range or inside a character, each gives
what the reader of characters gives, and the removal of comments and the search for blocks are in the same quote at
every character that is kept. -/
theorem lexing_refines (line : Nat) (t : Text) (r : Rule) :
    let m := Comment.run (Comment.start line) t
    let kept := Comment.kept (Comment.start line) [] (ofText t)
    strip line t = .ok (m.text, m.issues) ∧ slowStrip line t = .ok (m.text, m.issues) ∧
    scan line t = .ok (Block.scan line t) ∧
    declarations t = .ok (Declaration.ofBody t) ∧
    selectorIdentifiers t = .ok (Selector.names t) ∧
    collectVariables r = .ok r.properties ∧
    kept.Sublist (ofText t) ∧ text kept = m.text ∧
    ∀ j : Fin kept.length, ∃ q, strippedIn? line t (byteSize (t.take kept[j].index)) = some q ∧
      scannedIn? line m.text (byteSize (text (kept.take j))) = some q := by
  intro m kept
  obtain ⟨htext, hkeeps⟩ := @Comment.kept_spec (Comment.start line) [] rfl (ofText t)
  have htext : text kept = m.text := by simpa [Comment.start, m, kept] using htext
  refine ⟨strip_eq line t, slowStrip_eq line t, scan_eq line t, declarations_eq t, selectorIdentifiers_eq t,
    collectVariables_eq r, by simpa using hkeeps.sublist, htext, fun j => ?_⟩
  have hparts : kept = kept.take j ++ kept[j] :: kept.drop (j + 1) := by
    rw [Fin.getElem_fin, List.cons_getElem_drop_succ, List.take_append_drop]
  have hquotes := quotes_agree hparts
  rwa [← hparts, htext] at hquotes

end Bytewise

end StyleCheck
