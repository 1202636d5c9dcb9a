/-
The names in a selector over bytes.

Two loops look for the ends of strings and of attribute brackets, skipping two bytes at a backslash, and the loop around
them goes on from there; behind a dot or hash it cuts a name out. The reader of characters (`Selector.Names.step`)
leaves a string or bracket where the loop for it ends, or stays inside to the end of the selector (`Skips`).
- `skipString_skips`, `skipAttribute_skips`: so it is for both;
- `startsIdentifier_eq`: a name may begin where the run of identifier characters is one;
- `selectorIdentifiers_eq`: no slice fails, and the names are those that the reader of characters finds.
-/
import StyleCheck.Proofs.Bytes.Classes
import StyleCheck.Proofs.Bytes.Loop
import StyleCheck.Selector.Names

namespace StyleCheck

open Text Selector.Names

namespace Bytewise

namespace Names

/-- one byte of a string -/
def stringBody (q : UInt8) (i : Nat) (b : UInt8) (_ : Unit) : Except Nat (Nat × Unit) :=
  if b = byte '\\' then .ok (i + 2, ())
  else if b = q then .error (i + 1)
  else .ok (i + 1, ())

theorem lt_of_stringBody {q b : UInt8} {i j : Nat} {s s' : Unit} (h : stringBody q i b s = .ok (j, s')) : i < j := by
  unfold stringBody at h
  split_ifs at h
  all_goals
    obtain ⟨rfl, -⟩ := Prod.mk.inj (Except.ok.inj h)
    omega

theorem le_of_stringBody {q b : UInt8} {i r : Nat} (h : stringBody q i b () = .error r) : i ≤ r := by
  unfold stringBody at h
  split_ifs at h
  exact (Nat.le_succ i).trans (Except.error.inj h).le

def stringLoop (t : Text) (q : UInt8) : Loop Nat Unit := ⟨bytes t, stringBody q, fun _ => lt_of_stringBody⟩

/-- behind the closing quote of a string that goes on at `i` -/
def skipString (t : Text) (i : Nat) (q : UInt8) : Nat := (stringLoop t q).stop i ()

theorem le_skipString {t : Text} {i : Nat} (h : i ≤ (bytes t).length) (q : UInt8) : i ≤ skipString t i q :=
  Loop.le_stop le_of_stringBody h ()

/-- one byte inside an attribute bracket -/
def attributeBody (t : Text) (i : Nat) (b : UInt8) (_ : Unit) : Except Nat (Nat × Unit) :=
  if b = byte '\\' then .ok (i + 2, ())
  else if isQuoteByte b then .ok (skipString t (i + 1) b, ())
  else if b = byte ']' then .error (i + 1)
  else .ok (i + 1, ())

theorem lt_of_attributeBody {t : Text} {b : UInt8} {i j : Nat} {s s' : Unit} (hi : i < (bytes t).length)
    (h : attributeBody t i b s = .ok (j, s')) : i < j := by
  have hskip : i + 1 ≤ skipString t (i + 1) b := le_skipString hi b
  unfold attributeBody at h
  split_ifs at h
  all_goals
    obtain ⟨rfl, -⟩ := Prod.mk.inj (Except.ok.inj h)
    omega

theorem le_of_attributeBody {t : Text} {b : UInt8} {i r : Nat} (h : attributeBody t i b () = .error r) : i ≤ r := by
  unfold attributeBody at h
  split_ifs at h
  exact (Nat.le_succ i).trans (Except.error.inj h).le

def attributeLoop (t : Text) : Loop Nat Unit := ⟨bytes t, attributeBody t, lt_of_attributeBody⟩

/-- behind the closing bracket of an attribute that goes on at `i` -/
def skipAttribute (t : Text) (i : Nat) : Nat := (attributeLoop t).stop i ()

theorem le_skipAttribute {t : Text} {i : Nat} (h : i ≤ (bytes t).length) : i ≤ skipAttribute t i :=
  Loop.le_stop le_of_attributeBody h ()

end Names

/-- number of identifier bytes in front -/
def identLength (t : Text) : Nat := ((bytes t).takeWhile isIdentByte).length

/-- whether a name may begin: with a letter or underscore, or with a dash that no digit follows -/
def startsIdentifier (t : Text) : Bool :=
  match bytes t with
  | [] => false
  | b :: bs =>
    if b = byte '-' then bs.head?.any fun next => isIdentByte next && !isDigitByte next
    else isLetterByte b || b == byte '_' || 0x80 ≤ b

namespace Names

/-- what is behind a dot or hash, up to `i` -/
def nameBody (t : Text) (i : Nat) (category : Category) (found : List (Category × Text)) :
    Except BadSlice (Nat × List (Category × Text)) := do
  let rest ← sliceFrom t i
  if 0 < identLength rest ∧ startsIdentifier rest then
    let name ← slice rest 0 (identLength rest)
    return (i + identLength rest, found ++ [(category, name)])
  else return (i + identLength rest, found)

/-- one byte -/
def body (t : Text) (i : Nat) (b : UInt8) (found : List (Category × Text)) :
    Except BadSlice (Nat × List (Category × Text)) :=
  if b = byte '\\' then .ok (i + 2, found)
  else if isQuoteByte b then .ok (skipString t (i + 1) b, found)
  else if b = byte '[' then .ok (skipAttribute t (i + 1), found)
  else if b = byte '.' then nameBody t (i + 1) .className found
  else if b = byte '#' then nameBody t (i + 1) .id found
  else .ok (i + 1, found)

theorem le_of_nameBody {t : Text} {i j : Nat} {category : Category} {found found' : List (Category × Text)}
    (h : nameBody t i category found = .ok (j, found')) : i ≤ j := by
  obtain ⟨rest, -, h⟩ := bind_eq_ok.1 h
  split_ifs at h
  · obtain ⟨name, -, h⟩ := bind_eq_ok.1 h
    exact (Prod.mk.inj (Except.ok.inj h)).1 ▸ Nat.le_add_right ..
  · exact (Prod.mk.inj (Except.ok.inj h)).1 ▸ Nat.le_add_right ..

theorem lt_of_body {t : Text} {i j : Nat} {b : UInt8} {found found' : List (Category × Text)}
    (hi : i < (bytes t).length) (h : body t i b found = .ok (j, found')) : i < j := by
  have hstring : i + 1 ≤ skipString t (i + 1) b := le_skipString hi b
  have hattribute : i + 1 ≤ skipAttribute t (i + 1) := le_skipAttribute hi
  unfold body at h
  split_ifs at h
  all_goals first
    | exact le_of_nameBody h
    | obtain ⟨rfl, -⟩ := Prod.mk.inj (Except.ok.inj h)
      omega

def loop (t : Text) : Loop BadSlice (List (Category × Text)) := ⟨bytes t, body t, lt_of_body⟩

end Names

/-- class and id names in a selector, in order of appearance -/
def selectorIdentifiers (t : Text) : Except BadSlice (List (Category × Text)) := (Names.loop t).run 0 []

namespace Names

/-! ## Skipping -/

/-- inside a string or bracket, the reader of characters gets out at the position `stop`, or not before the end -/
inductive Skips (t u v : Text) (p p' : Place) (stop : Nat) : Prop where
  | ends {w v' : Text} : v = w ++ v' → stop = byteSize (u ++ w) →
      (∀ found, w.foldl step ⟨p, found⟩ = ⟨p', found⟩) → Skips t u v p p' stop
  | runs : stop = byteSize t → (∀ found, (v.foldl step ⟨p, found⟩).finish = found.reverse) → Skips t u v p p' stop

section
variable {t u v w : Text} {p p₁ p' : Place} {n : Nat}

theorem Skips.append (h : Skips t (u ++ w) v p₁ p' n) (hw : ∀ found, w.foldl step ⟨p, found⟩ = ⟨p₁, found⟩) :
    Skips t u (w ++ v) p p' n := by
  cases h with
  | @ends x v' hv hn hx =>
    refine .ends (w := w ++ x) (by rw [hv, List.append_assoc]) (by rw [hn, List.append_assoc]) fun found => ?_
    rw [List.foldl_append, hw, hx]
  | runs hn hfinish =>
    refine .runs hn fun found => ?_
    rw [List.foldl_append, hw, hfinish]

theorem stringBody_backslash (q : UInt8) (i : Nat) : stringBody q i (byte '\\') () = .ok (i + 2, ()) := if_pos rfl

theorem stringBody_char {q c : Char} (hq : isQuote q = true) (hc : c ≠ '\\') (i : Nat) :
    stringBody (byte q) i (byte c) () = if c = q then .error (i + 1) else .ok (i + 1, ()) := by
  have hbyte {d : Char} (hd : d.toNat < 0x80) : byte c = byte d ↔ c = d := byte_eq_iff hd
  simp only [stringBody, hbyte (d := '\\') (by decide), hbyte (ascii_of_quote hq), if_neg hc]

theorem stringBody_high {q : Char} (hq : isQuote q = true) (i : Nat) (b : UInt8) (hb : High b) :
    stringBody (byte q) i b () = .ok (i + 1, ()) := by
  rw [stringBody, if_neg (ne_byte_of_high hb (by decide)), if_neg (ne_byte_of_high hb (ascii_of_quote hq))]

/-- **A string is skipped up to where the reader of characters leaves it.** -/
theorem skipString_skips (ht : t = u ++ v) {q : Char} (hq : isQuote q = true) (bracket : Bool) :
    Skips t u v (.quoted bracket q) (around bracket) (skipString t (byteSize u) (byte q)) := by
  unfold skipString
  induction v using escape_induction generalizing u with
  | nil =>
    obtain rfl : t = u := by rw [ht, List.append_nil]
    have hsize : (stringLoop t (byte q)).bytes.length ≤ byteSize t := (length_bytes t).le
    rw [Loop.stop_of_le hsize]
    exact .runs (length_bytes t) fun found => rfl
  | lone =>
    have hbytes : (stringLoop t (byte q)).bytes = bytes (u ++ ['\\']) := congrArg bytes ht
    have hsize := Loop.length_le_of_lone hbytes
    rw [(Loop.Leads.one (Loop.head_eq hbytes) (stringBody_backslash (byte q) _)).stop_eq, Loop.stop_of_le hsize]
    exact .runs (length_bytes t) fun found => rfl
  | escape c v ih =>
    have hbytes : (stringLoop t (byte q)).bytes = bytes (u ++ '\\' :: c :: v) := congrArg bytes ht
    rw [(Loop.leads_escape hbytes (stringBody_backslash (byte q) _) (stringBody_high hq)).stop_eq]
    exact Skips.append (w := ['\\', c]) (ih (by simp [ht])) fun found => rfl
  | char c v hc ih =>
    have hbytes : (stringLoop t (byte q)).bytes = bytes (u ++ c :: v) := congrArg bytes ht
    have hbody := stringBody_char hq hc (byteSize u)
    by_cases hend : c = q
    · subst hend
      rw [if_pos rfl] at hbody
      rw [Loop.stop_error (Loop.head_eq hbytes) hbody]
      refine .ends (w := [c]) rfl (by simp [size_of_ascii (ascii_of_quote hq)]) fun found => ?_
      simp [step, hc]
    · rw [if_neg hend] at hbody
      rw [(Loop.leads_char hbytes hbody fun _ => stringBody_high hq).stop_eq]
      exact Skips.append (w := [c]) (ih (by simp [ht])) fun found => by simp [step, hc, hend]

theorem attributeBody_backslash (t : Text) (i : Nat) : attributeBody t i (byte '\\') () = .ok (i + 2, ()) := if_pos rfl

theorem attributeBody_char {c : Char} (hc : c ≠ '\\') (t : Text) (i : Nat) :
    attributeBody t i (byte c) () =
      if isQuote c then .ok (skipString t (i + 1) (byte c), ())
      else if c = ']' then .error (i + 1)
      else .ok (i + 1, ()) := by
  have hbyte {d : Char} (hd : d.toNat < 0x80) : byte c = byte d ↔ c = d := byte_eq_iff hd
  simp only [attributeBody, hbyte (d := '\\') (by decide), hbyte (d := ']') (by decide), isQuoteByte_byte, if_neg hc]

theorem attributeBody_high (t : Text) (i : Nat) (b : UInt8) (hb : High b) :
    attributeBody t i b () = .ok (i + 1, ()) := by
  rw [attributeBody, if_neg (ne_byte_of_high hb (by decide)), isQuoteByte_high hb, if_neg Bool.false_ne_true,
    if_neg (ne_byte_of_high hb (by decide))]

/-- **So is an attribute bracket**, with the strings inside. -/
theorem skipAttribute_skips (ht : t = u ++ v) : Skips t u v .attribute .outside (skipAttribute t (byteSize u)) := by
  unfold skipAttribute
  induction v using escape_strongInduction generalizing u with
  | nil =>
    obtain rfl : t = u := by rw [ht, List.append_nil]
    have hsize : (attributeLoop t).bytes.length ≤ byteSize t := (length_bytes t).le
    rw [Loop.stop_of_le hsize]
    exact .runs (length_bytes t) fun found => rfl
  | lone =>
    have hbytes : (attributeLoop t).bytes = bytes (u ++ ['\\']) := congrArg bytes ht
    have hsize := Loop.length_le_of_lone hbytes
    rw [(Loop.Leads.one (Loop.head_eq hbytes) (attributeBody_backslash t _)).stop_eq, Loop.stop_of_le hsize]
    exact .runs (length_bytes t) fun found => rfl
  | escape c v ih =>
    have hbytes : (attributeLoop t).bytes = bytes (u ++ '\\' :: c :: v) := congrArg bytes ht
    rw [(Loop.leads_escape hbytes (attributeBody_backslash t _) (attributeBody_high t)).stop_eq]
    exact Skips.append (w := ['\\', c]) (ih (by simp [ht])) fun found => rfl
  | char c v hc ih =>
    have hbytes : (attributeLoop t).bytes = bytes (u ++ c :: v) := congrArg bytes ht
    have hbody := attributeBody_char hc t (byteSize u)
    have hparts : t = u ++ [c] ++ v := by rw [ht, List.append_cons]
    by_cases hq : isQuote c = true
    · have hsize : byteSize u + 1 = byteSize (u ++ [c]) := by simp [size_of_ascii (ascii_of_quote hq)]
      have hopen (found) : [c].foldl step ⟨.attribute, found⟩ = ⟨.quoted true c, found⟩ := by simp [step, hc, hq]
      have hinside := skipString_skips hparts hq true
      rw [if_pos hq, hsize] at hbody
      rw [(Loop.Leads.one (Loop.head_eq hbytes) hbody).stop_eq]
      cases hinside with
      | @ends w v' hv hstop hw =>
        have hrest := ih v' ⟨w, hv.symm⟩ (u := u ++ [c] ++ w) (by rw [hparts, hv, List.append_assoc _ w])
        rw [hstop, hv]
        exact Skips.append (w := [c]) (Skips.append hrest hw) hopen
      | runs hstop hfinish =>
        rw [hstop, Loop.stop_of_le (length_bytes t).le]
        refine .runs (length_bytes t) fun found => ?_
        rw [← List.singleton_append, List.foldl_append, hopen, hfinish]
    · rw [if_neg hq] at hbody
      by_cases hend : c = ']'
      · subst hend
        rw [if_pos rfl] at hbody
        rw [Loop.stop_error (Loop.head_eq hbytes) hbody]
        exact .ends (w := [']']) rfl (by simp [size_of_ascii]) fun found => rfl
      · rw [if_neg hend] at hbody
        rw [(Loop.leads_char hbytes hbody fun _ => attributeBody_high t).stop_eq]
        exact Skips.append (w := [c]) (ih v (List.suffix_refl v) hparts) fun found => by simp [step, hc, hq, hend]

end

/-! ## Names -/

theorem identLength_eq (t : Text) : identLength t = byteSize (t.takeWhile isIdentChar) :=
  length_takeWhile_bytes isIdentByte_byte (fun _ => isIdentByte_high) t

/-- the first byte of an identifier character that is no dash -/
theorem startsIdentifier_cons {c : Char} (hc : c ≠ '-') (t : Text) :
    startsIdentifier (c :: t) = (c.isAlpha || c == '_' || 0x80 ≤ c.toNat) := by
  have hbyte {d : Char} (hd : d.toNat < 0x80) : byte c = byte d ↔ c = d := byte_eq_iff hd
  have hhigh : 0x80 ≤ byte c ↔ 0x80 ≤ c.toNat := by
    refine ⟨fun h => ?_, high_byte⟩
    by_contra hlt
    exact not_high_byte (Nat.lt_of_not_le hlt) h
  have hunderscore : (byte c == byte '_') = (c == '_') := by
    rw [Bool.eq_iff_iff, beq_iff_eq, beq_iff_eq, hbyte (by decide)]
  unfold startsIdentifier
  rw [bytes_cons, encode_eq]
  simp only [List.cons_append, hbyte (d := '-') (by decide), if_neg hc, isLetterByte_byte, hunderscore, hhigh]

/-- **A name may begin** where the run of identifier characters in front is one. -/
theorem startsIdentifier_eq (t : Text) :
    (0 < identLength t ∧ startsIdentifier t = true) ↔ isIdentifier (t.takeWhile isIdentChar) = true := by
  rw [identLength_eq]
  cases t with
  | nil => simp [isIdentifier]
  | cons c t =>
    cases hc : isIdentChar c with
    | false => simp [hc, isIdentifier]
    | true =>
      have hpos : 0 < byteSize ((c :: t).takeWhile isIdentChar) := by
        rw [List.takeWhile_cons_of_pos hc, byteSize_cons]
        exact Nat.add_pos_left c.utf8Size_pos _
      rw [and_iff_right hpos, List.takeWhile_cons_of_pos hc]
      by_cases hdash : c = '-'
      · subst hdash
        have hbytes : bytes ('-' :: t) = byte '-' :: bytes t := bytes_cons '-' t
        unfold startsIdentifier
        rw [hbytes]
        simp only [if_true]
        cases t with
        | nil => simp [isIdentifier]
        | cons d t =>
          rw [bytes_cons, encode_eq]
          cases hd : isIdentChar d <;> simp [hd, isIdentifier]
      · rw [startsIdentifier_cons hdash]
        unfold isIdentifier
        split
        · rename_i heq
          exact absurd (List.cons.inj heq).1 hdash
        · rename_i heq
          exact absurd (List.cons.inj heq).1 hdash
        · rename_i heq
          rw [(List.cons.inj heq).1]
        · rename_i heq
          cases heq

/-- a run of identifier characters is collected -/
theorem foldl_name {w : Text} (hw : ∀ c ∈ w, isIdentChar c = true) (k : Category) (seen : Text)
    (found : List (Category × Text)) : w.foldl step ⟨.name k seen, found⟩ = ⟨.name k (w.reverse ++ seen), found⟩ := by
  induction w generalizing seen with
  | nil => rfl
  | cons c w ih =>
    obtain ⟨hc, hw⟩ := List.forall_mem_cons.1 hw
    have hstep : step ⟨.name k seen, found⟩ c = ⟨.name k (c :: seen), found⟩ := if_pos hc
    rw [List.foldl_cons, hstep, ih hw, List.reverse_cons, List.append_assoc]
    rfl

/-- behind a run of identifier characters, a name has ended -/
theorem finish_name {v : Text} (hv : ∀ c, v.head? = some c → isIdentChar c = false) (k : Category) (seen : Text)
    (found : List (Category × Text)) :
    (v.foldl step ⟨.name k seen, found⟩).finish = (v.foldl step ⟨.outside, close k seen found⟩).finish := by
  cases v with
  | nil => rfl
  | cons c v =>
    have hstep : step ⟨.name k seen, found⟩ c = step ⟨.outside, close k seen found⟩ c :=
      if_neg (by rw [hv c rfl]; exact Bool.false_ne_true)
    rw [List.foldl_cons, List.foldl_cons, hstep]

/-- **Behind a dot or hash, a name is cut out** where the reader of characters collects one. -/
theorem nameBody_eq (u v : Text) (k : Category) (found : List (Category × Text)) :
    nameBody (u ++ v) (byteSize u) k found.reverse =
      .ok (byteSize (u ++ v.takeWhile isIdentChar), (close k (v.takeWhile isIdentChar).reverse found).reverse) := by
  have hrest : sliceFrom (u ++ v) (byteSize u) = .ok v := sliceFrom_parts u v
  have hname : slice v 0 (identLength v) = .ok (v.takeWhile isIdentChar) := by
    rw [identLength_eq]
    exact slice_eq_ok_iff.2 ⟨[], v.dropWhile isIdentChar, List.takeWhile_append_dropWhile.symm, rfl, rfl⟩
  unfold nameBody
  simp only [hrest, bind, Except.bind, startsIdentifier_eq, hname, close, List.reverse_reverse, byteSize_append]
  split <;> simp [pure, Except.pure, identLength_eq]

/-! ## The whole selector -/

theorem body_backslash (t : Text) (i : Nat) (found : List (Category × Text)) :
    body t i (byte '\\') found = .ok (i + 2, found) := if_pos rfl

theorem body_char {c : Char} (hc : c ≠ '\\') (t : Text) (i : Nat) (found : List (Category × Text)) :
    body t i (byte c) found =
      if isQuote c then .ok (skipString t (i + 1) (byte c), found)
      else if c = '[' then .ok (skipAttribute t (i + 1), found)
      else if c = '.' then nameBody t (i + 1) .className found
      else if c = '#' then nameBody t (i + 1) .id found
      else .ok (i + 1, found) := by
  have hbyte {d : Char} (hd : d.toNat < 0x80) : byte c = byte d ↔ c = d := byte_eq_iff hd
  simp only [body, hbyte (d := '\\') (by decide), hbyte (d := '[') (by decide), hbyte (d := '.') (by decide),
    hbyte (d := '#') (by decide), isQuoteByte_byte, if_neg hc]

theorem body_high (t : Text) (found : List (Category × Text)) (i : Nat) (b : UInt8) (hb : High b) :
    body t i b found = .ok (i + 1, found) := by
  have hne {c : Char} (hc : c.toNat < 0x80) : b ≠ byte c := ne_byte_of_high hb hc
  rw [body, if_neg (hne (by decide)), isQuoteByte_high hb, if_neg Bool.false_ne_true, if_neg (hne (by decide)),
    if_neg (hne (by decide)), if_neg (hne (by decide))]

section
variable {t u v : Text} {found : List (Category × Text)}

/-- what is skipped holds no name -/
theorem run_skips {p : Place} {n : Nat} (hskips : Skips t u v p .outside n)
    (ih : ∀ w, w <:+ v → ∀ {u}, t = u ++ w →
      (loop t).run (byteSize u) found.reverse = .ok (w.foldl step ⟨.outside, found⟩).finish) (ht : t = u ++ v) :
    (loop t).run n found.reverse = .ok (v.foldl step ⟨p, found⟩).finish := by
  cases hskips with
  | @ends w v' hv hn hw =>
    rw [hn, ih v' ⟨w, hv.symm⟩ (by rw [ht, hv, List.append_assoc]), hv, List.foldl_append, hw]
  | runs hn hfinish => rw [hn, Loop.run_of_le (length_bytes t).le, hfinish]

/-- a name is found, or what is behind the dot or hash is passed over -/
theorem run_name {k : Category} {i : Nat}
    (hstep : (loop t).run i found.reverse =
      (loop t).run (byteSize (u ++ v.takeWhile isIdentChar)) (close k (v.takeWhile isIdentChar).reverse found).reverse)
    (ih : ∀ w, w <:+ v → ∀ {u} {found}, t = u ++ w →
      (loop t).run (byteSize u) found.reverse = .ok (w.foldl step ⟨.outside, found⟩).finish) (ht : t = u ++ v) :
    (loop t).run i found.reverse = .ok (v.foldl step ⟨.name k [], found⟩).finish := by
  have hparts : v.takeWhile isIdentChar ++ v.dropWhile isIdentChar = v := List.takeWhile_append_dropWhile
  have hafter : ∀ c, (v.dropWhile isIdentChar).head? = some c → isIdentChar c = false := fun c hc => by
    simpa [hc] using List.head?_dropWhile_not isIdentChar v
  have hread : v.foldl step ⟨.name k [], found⟩ =
      (v.dropWhile isIdentChar).foldl step ⟨.name k (v.takeWhile isIdentChar).reverse, found⟩ := by
    conv_lhs => rw [← hparts]
    rw [List.foldl_append, foldl_name (fun c hc => List.mem_takeWhile_imp hc), List.append_nil]
  rw [hstep, ih _ (List.dropWhile_suffix _) (by rw [ht, List.append_assoc, hparts]), hread, finish_name hafter]

/-- **In front of every character outside strings, brackets and names, the loop goes on to find what the reader of
characters does.** -/
theorem run_eq (ht : t = u ++ v) :
    (loop t).run (byteSize u) found.reverse = .ok (v.foldl step ⟨.outside, found⟩).finish := by
  induction v using escape_strongInduction generalizing u found with
  | nil =>
    obtain rfl : t = u := by rw [ht, List.append_nil]
    exact Loop.run_of_le (length_bytes t).le _
  | lone =>
    have hbytes : (loop t).bytes = bytes (u ++ ['\\']) := congrArg bytes ht
    have hsize := Loop.length_le_of_lone hbytes
    rw [Loop.run_step (Loop.head_eq hbytes) (body_backslash t _ _), Loop.run_of_le hsize]
    rfl
  | escape c v ih =>
    have hbytes : (loop t).bytes = bytes (u ++ '\\' :: c :: v) := congrArg bytes ht
    rw [(Loop.leads_escape hbytes (body_backslash t _ _) (body_high t _)).run_eq, ih (by simp [ht])]
    rfl
  | char c v hc ih =>
    have hbytes : (loop t).bytes = bytes (u ++ c :: v) := congrArg bytes ht
    have hparts : t = u ++ [c] ++ v := by rw [ht, List.append_cons]
    have hbody := body_char hc t (byteSize u) found.reverse
    have hstep : step ⟨.outside, found⟩ c = ⟨enter c, found⟩ := rfl
    have hsize (hascii : c.toNat < 0x80) : byteSize u + 1 = byteSize (u ++ [c]) := by simp [size_of_ascii hascii]
    rw [List.foldl_cons, hstep]
    by_cases hq : isQuote c = true
    · have henter : enter c = .quoted false c := by simp [enter, hc, hq]
      rw [if_pos hq, hsize (ascii_of_quote hq)] at hbody
      rw [Loop.run_step (Loop.head_eq hbytes) hbody, henter]
      exact run_skips (skipString_skips hparts hq false) (fun w hw => ih w hw) hparts
    by_cases hopen : c = '['
    · subst hopen
      rw [if_neg hq, if_pos rfl, hsize (by decide)] at hbody
      rw [Loop.run_step (Loop.head_eq hbytes) hbody]
      exact run_skips (skipAttribute_skips hparts) (fun w hw => ih w hw) hparts
    rw [if_neg hq, if_neg hopen] at hbody
    by_cases hdot : c = '.'
    · subst hdot
      rw [if_pos rfl, hsize (by decide), hparts, nameBody_eq, ← hparts] at hbody
      exact run_name (Loop.run_step (Loop.head_eq hbytes) hbody) ih hparts
    by_cases hhash : c = '#'
    · subst hhash
      rw [if_neg hdot, if_pos rfl, hsize (by decide), hparts, nameBody_eq, ← hparts] at hbody
      exact run_name (Loop.run_step (Loop.head_eq hbytes) hbody) ih hparts
    rw [if_neg hdot, if_neg hhash] at hbody
    have henter : enter c = .outside := by simp [enter, hc, hq, hopen, hdot, hhash]
    rw [(Loop.leads_char hbytes hbody fun _ => body_high t _).run_eq, ih v (List.suffix_refl v) hparts, henter]

end

end Names

/-- **No slice fails, and the names in a selector are those of its characters.** -/
theorem selectorIdentifiers_eq (t : Text) : selectorIdentifiers t = .ok (Selector.names t) :=
  @Names.run_eq t [] t [] rfl

end Bytewise

end StyleCheck
