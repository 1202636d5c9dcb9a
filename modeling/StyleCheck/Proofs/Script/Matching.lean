/-
What a pattern matches, said without the reader.

A piece can read a text in several ways; `Piece.ways` lists them in the order in which they are tried: a repetition
reads as much as it can first, a choice follows its alternatives. A sequence of pieces goes back to the next way of a
piece when what follows fails (`ways`), and a search takes the first match at the leftmost place, then goes on behind
it (`Finds`). The reader of a script never goes back, and need not:
- `Piece.ways_spec`: what a way reads, and whether it can read nothing;
- `Piece.leaves_of_mem_tail`: where a later way begins to differ from the first;
- `readAll?_eq`: where what follows a piece cannot begin with what the piece leaves over (`Determined`), reading once is
  reading the first way;
- `exists_search`: a search finds the leftmost matches, and there is only one list of them;
- `Finds.preferred`, `Finds.ordered`: what a match found is, and that matches lie one behind the other.
-/
import Mathlib.Data.List.Infix
import Mathlib.Data.List.TakeDrop
import StyleCheck.Script.Pattern

namespace StyleCheck.Script

open Text

/-! ## Ways to read -/

/-- one character of a class, and the rest -/
def one (p : Char → Bool) : Text → List (Text × Text)
  | [] => []
  | c :: t => if p c then [([c], t)] else []

/-- characters of a class, as many as there are first, then fewer and fewer -/
def runs (p : Char → Bool) : Text → List (Text × Text)
  | [] => [([], [])]
  | c :: t => (if p c then (runs p t).map fun w => (c :: w.1, w.2) else []) ++ [([], c :: t)]

/-- one of several texts, in their order -/
def anyOf (ts : List Text) (t : Text) : List (Text × Text) :=
  ts.filterMap fun u => (u.isPrefixOf? t).map fun rest => (u, rest)

/-- two dashes and name characters, as many as there are first, then fewer and fewer, but at least one -/
def dashed : Text → List (Text × Text)
  | '-' :: '-' :: t => ((runs isNameChar t).filter (!·.1.isEmpty)).map fun w => ('-' :: '-' :: w.1, w.2)
  | _ => []

namespace Piece

/-- the ways to read `t`, which follows `last`: each with the rest, in the order in which they are tried -/
def ways (last : Option Char) (t : Text) : Piece → List (Text × Text)
  | wordStart => if last.any isWordChar = t.head?.any isWordChar then [] else [([], t)]
  | literal u => anyOf [u] t
  | choice ts => anyOf ts t
  | word ts => anyOf ts t
  | blank => one isBlank t
  | blanks => runs isBlank t
  | oneOf cs => one (· ∈ cs) t
  | optional c => one (· = c) t ++ [([], t)]
  | upTo stops => runs (· ∉ stops) t
  | property => dashed t

/-- whether a piece can begin by reading `o`; nothing can be read at the end of a text -/
def first (o : Option Char) : Piece → Bool
  | wordStart => false
  | literal u => o.isSome && u.head? == o
  | choice ts => o.isSome && ts.any (·.head? == o)
  | word ts => o.isSome && ts.any (·.head? == o)
  | blank => o.any isBlank
  | blanks => o.any isBlank
  | oneOf cs => o.any (· ∈ cs)
  | optional c => o == some c
  | upTo stops => o.any (· ∉ stops)
  | property => o == some '-'

/-- whether a piece can read nothing -/
def silent : Piece → Bool
  | wordStart | blanks | optional _ | upTo _ => true
  | literal u => u.isEmpty
  | choice ts => ts.any (·.isEmpty)
  | word ts => ts.any (·.isEmpty)
  | blank | oneOf _ | property => false

end Piece

theorem mem_one {p : Char → Bool} {t read rest : Text} (h : (read, rest) ∈ one p t) :
    ∃ c, read = [c] ∧ t = c :: rest ∧ p c = true := by
  cases t with
  | nil => cases h
  | cons c t =>
    rw [one] at h
    split at h
    · rename_i hc
      obtain ⟨rfl, rfl⟩ := Prod.mk.inj (List.mem_singleton.1 h)
      exact ⟨c, rfl, rfl, hc⟩
    · cases h

theorem mem_runs {p : Char → Bool} {t read rest : Text} (h : (read, rest) ∈ runs p t) :
    t = read ++ rest ∧ ∀ c ∈ read, p c = true := by
  induction t generalizing read with
  | nil =>
    obtain ⟨rfl, rfl⟩ := Prod.mk.inj (List.mem_singleton.1 h)
    exact ⟨rfl, by simp⟩
  | cons c t ih =>
    rw [runs] at h
    rcases List.mem_append.1 h with h | h
    · split at h
      · rename_i hc
        obtain ⟨⟨read', rest'⟩, hmem, heq⟩ := List.mem_map.1 h
        obtain ⟨rfl, rfl⟩ := Prod.mk.inj heq
        obtain ⟨rfl, hall⟩ := ih hmem
        exact ⟨rfl, List.forall_mem_cons.2 ⟨hc, hall⟩⟩
      · cases h
    · obtain ⟨rfl, rfl⟩ := Prod.mk.inj (List.mem_singleton.1 h)
      exact ⟨rfl, by simp⟩

theorem mem_anyOf {ts : List Text} {t read rest : Text} (h : (read, rest) ∈ anyOf ts t) :
    read ∈ ts ∧ t = read ++ rest := by
  obtain ⟨u, hu, hw⟩ := List.mem_filterMap.1 h
  obtain ⟨rest', hrest, heq⟩ := Option.map_eq_some_iff.1 hw
  obtain ⟨rfl, rfl⟩ := Prod.mk.inj heq
  exact ⟨hu, (List.isPrefixOf?_eq_some_iff_append_eq.1 hrest).symm⟩

theorem mem_dashed {t read rest : Text} (h : (read, rest) ∈ dashed t) :
    ∃ name, read = '-' :: '-' :: name ∧ t = read ++ rest ∧ isName name = true := by
  unfold dashed at h
  split at h
  · obtain ⟨⟨name, rest'⟩, hmem, heq⟩ := List.mem_map.1 h
    obtain ⟨rfl, rfl⟩ := Prod.mk.inj heq
    obtain ⟨hruns, hname⟩ := List.mem_filter.1 hmem
    obtain ⟨rfl, hall⟩ := mem_runs hruns
    refine ⟨name, rfl, rfl, ?_⟩
    rw [isName, Bool.and_eq_true]
    exact ⟨hname, List.all_eq_true.2 hall⟩
  · cases h

/-- **What a way reads**: the front of the text, which it begins by reading, or nothing. -/
theorem Piece.ways_spec {p : Piece} {last : Option Char} {t read rest : Text} (h : (read, rest) ∈ p.ways last t) :
    t = read ++ rest ∧ (read = [] ∧ p.silent = true ∨ read ≠ [] ∧ p.first t.head? = true) := by
  have hclass {p : Char → Bool} (h : (read, rest) ∈ one p t) :
      t = read ++ rest ∧ read ≠ [] ∧ t.head?.any p = true := by
    obtain ⟨c, rfl, rfl, hc⟩ := mem_one h
    exact ⟨rfl, by simp, hc⟩
  have hruns {p : Char → Bool} (h : (read, rest) ∈ runs p t) :
      t = read ++ rest ∧ (read = [] ∨ read ≠ [] ∧ t.head?.any p = true) := by
    obtain ⟨rfl, hall⟩ := mem_runs h
    refine ⟨rfl, ?_⟩
    cases read with
    | nil => exact Or.inl rfl
    | cons c read => exact Or.inr ⟨by simp, hall c List.mem_cons_self⟩
  have hchoice {ts : List Text} (h : (read, rest) ∈ anyOf ts t) :
      t = read ++ rest ∧ (read = [] ∧ ts.any (·.isEmpty) = true ∨
        read ≠ [] ∧ (t.head?.isSome && ts.any (·.head? == t.head?)) = true) := by
    obtain ⟨hread, rfl⟩ := mem_anyOf h
    refine ⟨rfl, ?_⟩
    cases read with
    | nil => exact Or.inl ⟨rfl, List.any_eq_true.2 ⟨[], hread, rfl⟩⟩
    | cons c read =>
      refine Or.inr ⟨by simp, ?_⟩
      rw [Bool.and_eq_true]
      exact ⟨rfl, List.any_eq_true.2 ⟨_, hread, by simp⟩⟩
  cases p with
  | wordStart =>
    rw [ways] at h
    split at h
    · cases h
    · obtain ⟨rfl, rfl⟩ := Prod.mk.inj (List.mem_singleton.1 h)
      exact ⟨rfl, Or.inl ⟨rfl, rfl⟩⟩
  | literal u => simpa [first, silent] using hchoice h
  | choice ts => exact hchoice h
  | word ts => exact hchoice h
  | blank => exact (hclass h).imp_right Or.inr
  | blanks => exact (hruns h).imp_right (Or.imp_left fun hr => ⟨hr, rfl⟩)
  | oneOf cs => exact (hclass h).imp_right Or.inr
  | upTo stops => exact (hruns h).imp_right (Or.imp_left fun hr => ⟨hr, rfl⟩)
  | optional c =>
    rcases List.mem_append.1 h with h | h
    · obtain ⟨d, rfl, rfl, hd⟩ := mem_one h
      refine ⟨rfl, Or.inr ⟨by simp, ?_⟩⟩
      simpa [first] using hd
    · obtain ⟨rfl, rfl⟩ := Prod.mk.inj (List.mem_singleton.1 h)
      exact ⟨rfl, Or.inl ⟨rfl, rfl⟩⟩
  | property =>
    obtain ⟨name, rfl, rfl, -⟩ := mem_dashed h
    exact ⟨rfl, Or.inr ⟨by simp, rfl⟩⟩

/-! ## Matches -/

/-- a place in a text -/
structure Spot where
  before : Text
  after : Text
  deriving DecidableEq, Repr

/-- a captured part of a text -/
structure Group where
  before : Text
  text : Text
  deriving DecidableEq, Repr

/-- a match, from its first place to its last -/
structure Match where
  start : Spot
  groups : List Group
  stop : Spot
  deriving DecidableEq, Repr

/-- a place as the reader keeps it -/
def Spot.cursor (s : Spot) : Cursor := ⟨s.before.getLast?, newlines s.before + 1, s.after⟩

/-- a captured part as the reader keeps it -/
def Group.captured (g : Group) : Captured := ⟨newlines g.before + 1, g.text⟩

/-- what a sequence of pieces captures at a place and where it ends, the preferred way first -/
def ways : List Piece → Spot → List (List Group × Spot)
  | [], s => [([], s)]
  | p :: ps, s => (p.ways s.before.getLast? s.after).flatMap fun w =>
    (ways ps ⟨s.before ++ w.1, w.2⟩).map fun m => (if p.isCapture then ⟨s.before, w.1⟩ :: m.1 else m.1, m.2)

/-- `ms` are the successive matches behind a place: each the preferred one at the first place that has one, and the next
one looked for behind it -/
inductive Finds (ps : List Piece) : Spot → List Match → Prop
  | done {before : Text} : ways ps ⟨before, []⟩ = [] → Finds ps ⟨before, []⟩ []
  | skip {before : Text} {c : Char} {t : Text} {ms : List Match} :
    ways ps ⟨before, c :: t⟩ = [] → Finds ps ⟨before ++ [c], t⟩ ms → Finds ps ⟨before, c :: t⟩ ms
  | found {s e : Spot} {groups : List Group} {ms : List Match} :
    (ways ps s).head? = some (groups, e) → Finds ps e ms → Finds ps s (⟨s, groups, e⟩ :: ms)

/-- whether a match can begin in front of `o`, or at the end of a text -/
def starts : List Piece → Option Char → Bool
  | [], _ => true
  | p :: ps, o => p.first o || p.silent && starts ps o

theorem ways_eq_nil {ps : List Piece} {s : Spot} (h : starts ps s.after.head? = false) : ways ps s = [] := by
  induction ps generalizing s with
  | nil => cases h
  | cons p ps ih =>
    obtain ⟨hfirst, hrest⟩ := Bool.or_eq_false_iff.1 h
    rw [ways, List.flatMap_eq_nil_iff]
    rintro ⟨read, rest⟩ hw
    obtain ⟨hafter, hread⟩ := Piece.ways_spec hw
    rcases hread with ⟨rfl, hsilent⟩ | ⟨-, hread⟩
    · have hnone : starts ps rest.head? = false := by
        rw [hsilent, Bool.true_and] at hrest
        rwa [hafter] at hrest
      rw [ih hnone, List.map_nil]
    · rw [hfirst] at hread
      cases hread

/-- **Where a match lies**: it reads on from its place, and captures parts of what it reads. Only a pattern that can
match at the end of a text reads nothing. -/
theorem ways_spec {ps : List Piece} {s e : Spot} {groups : List Group} (h : (groups, e) ∈ ways ps s) :
    (∃ read, e.before = s.before ++ read ∧ s.after = read ++ e.after ∧ (read = [] → starts ps none = true)) ∧
    ∀ g ∈ groups, s.before <+: g.before ∧ g.before ++ g.text <+: e.before := by
  induction ps generalizing s groups with
  | nil =>
    obtain ⟨rfl, rfl⟩ := Prod.mk.inj (List.mem_singleton.1 h)
    exact ⟨⟨[], by simp, rfl, fun _ => rfl⟩, by simp⟩
  | cons p ps ih =>
    obtain ⟨⟨read, rest⟩, hw, h⟩ := List.mem_flatMap.1 h
    obtain ⟨⟨more, e'⟩, hmem, heq⟩ := List.mem_map.1 h
    obtain ⟨rfl, rfl⟩ := Prod.mk.inj heq
    obtain ⟨hafter, hread⟩ := Piece.ways_spec hw
    obtain ⟨⟨read', hbefore, hrest, hnothing⟩, hgroups⟩ := ih hmem
    have hbefore : e'.before = s.before ++ (read ++ read') := by rw [hbefore, List.append_assoc]
    refine ⟨⟨read ++ read', hbefore, ?_, ?_⟩, ?_⟩
    · rw [hafter, List.append_assoc]
      exact congrArg _ hrest
    · intro hempty
      obtain ⟨rfl, rfl⟩ := List.append_eq_nil_iff.1 hempty
      rcases hread with ⟨-, hsilent⟩ | ⟨hne, -⟩
      · rw [starts, hsilent, hnothing rfl, Bool.true_and, Bool.or_true]
      · exact absurd rfl hne
    · have hmore : ∀ g ∈ more, s.before <+: g.before ∧ g.before ++ g.text <+: e'.before := by
        intro g hg
        obtain ⟨hstart, hstop⟩ := hgroups g hg
        exact ⟨(List.prefix_append _ _).trans hstart, hstop⟩
      intro g hg
      split at hg
      · rcases List.mem_cons.1 hg with rfl | hg
        · rw [hbefore, ← List.append_assoc]
          exact ⟨List.prefix_refl _, List.prefix_append _ _⟩
        · exact hmore g hg
      · exact hmore g hg

/-- a match of two sequences is a match of the first and one of the second behind it -/
theorem mem_ways_append {ps qs : List Piece} {s e : Spot} {groups : List Group}
    (h : (groups, e) ∈ ways (ps ++ qs) s) :
    ∃ first mid more, (first, mid) ∈ ways ps s ∧ (more, e) ∈ ways qs mid ∧ groups = first ++ more := by
  induction ps generalizing s groups with
  | nil => exact ⟨[], s, groups, List.mem_singleton_self _, h, rfl⟩
  | cons p ps ih =>
    rw [List.cons_append, ways] at h
    obtain ⟨w, hw, h⟩ := List.mem_flatMap.1 h
    obtain ⟨⟨later, e'⟩, hmem, heq⟩ := List.mem_map.1 h
    obtain ⟨rfl, rfl⟩ := Prod.mk.inj heq
    obtain ⟨first, mid, more, hfirst, hmore, rfl⟩ := ih hmem
    refine ⟨if p.isCapture then ⟨s.before, w.1⟩ :: first else first, mid, more, ?_, hmore, ?_⟩
    · exact List.mem_flatMap.2 ⟨w, hw, List.mem_map.2 ⟨_, hfirst, rfl⟩⟩
    · cases p.isCapture <;> rfl

/-! ## Reading without going back -/

theorem head?_runs (p : Char → Bool) (t : Text) : (runs p t).head? = some (t.span p) := by
  rw [List.span_eq_takeWhile_dropWhile]
  induction t with
  | nil => rfl
  | cons c t ih =>
    by_cases hc : p c = true
    · rw [runs, if_pos hc, List.head?_append, List.head?_map, ih, List.takeWhile_cons_of_pos hc,
        List.dropWhile_cons_of_pos hc]
      rfl
    · rw [runs, if_neg hc, List.takeWhile_cons_of_neg hc, List.dropWhile_cons_of_neg hc]
      rfl

/-- every way but the first leaves a character over -/
theorem leaves_runs {p : Char → Bool} {t read rest : Text} (h : (read, rest) ∈ (runs p t).tail) :
    ∃ c rest', rest = c :: rest' ∧ p c = true := by
  induction t generalizing read with
  | nil => cases h
  | cons c t ih =>
    by_cases hc : p c = true
    · have hne : (runs p t).map (fun w => (c :: w.1, w.2)) ≠ [] := by
        intro hnil
        have hhead := head?_runs p t
        rw [List.map_eq_nil_iff.1 hnil] at hhead
        cases hhead
      rw [runs, if_pos hc, List.tail_append_of_ne_nil hne, ← List.map_tail] at h
      rcases List.mem_append.1 h with h | h
      · obtain ⟨⟨read', rest'⟩, hmem, heq⟩ := List.mem_map.1 h
        obtain ⟨-, rfl⟩ := Prod.mk.inj heq
        exact ih hmem
      · obtain ⟨-, rfl⟩ := Prod.mk.inj (List.mem_singleton.1 h)
        exact ⟨c, t, rfl, hc⟩
    · rw [runs, if_neg hc] at h
      cases h

/-- the characters with which one of several texts goes on behind another -/
def overhangs (ts : List Text) : List Char := ts.flatMap fun u => ts.filterMap fun v => (v.isPrefixOf? u).bind (·.head?)

theorem leaves_anyOf {ts : List Text} (hts : ts.Pairwise fun u v => ¬u <+: v) {t read rest : Text}
    (h : (read, rest) ∈ (anyOf ts t).tail) : ∃ c rest', rest = c :: rest' ∧ c ∈ overhangs ts := by
  have hlonger : ∃ u ∈ ts, read ∈ ts ∧ ¬u <+: read ∧ u <+: t ∧ t = read ++ rest := by
    induction ts with
    | nil => cases h
    | cons u ts ih =>
      obtain ⟨hu, hts⟩ := List.pairwise_cons.1 hts
      cases hfront : u.isPrefixOf? t with
      | none =>
        rw [anyOf, List.filterMap_cons_none (by rw [hfront]; rfl)] at h
        obtain ⟨u', hu', hread, hrest⟩ := ih hts h
        exact ⟨u', List.mem_cons_of_mem _ hu', List.mem_cons_of_mem _ hread, hrest⟩
      | some after =>
        rw [anyOf, List.filterMap_cons_some (by rw [hfront]; rfl), List.tail_cons] at h
        obtain ⟨hread, ht⟩ := mem_anyOf h
        have hut : u <+: t := ⟨after, List.isPrefixOf?_eq_some_iff_append_eq.1 hfront⟩
        exact ⟨u, List.mem_cons_self, List.mem_cons_of_mem _ hread, hu _ hread, hut, ht⟩
  obtain ⟨u, hu, hread, hnot, hut, rfl⟩ := hlonger
  have hshorter : read <+: u :=
    (List.prefix_or_prefix_of_prefix hut (List.prefix_append read rest)).resolve_left hnot
  obtain ⟨excess, rfl⟩ := hshorter
  cases excess with
  | nil => exact absurd (by simp) hnot
  | cons c excess =>
    obtain ⟨more, hmore⟩ := (List.prefix_append_right_inj read).1 hut
    refine ⟨c, excess ++ more, hmore.symm, List.mem_flatMap.2 ⟨_, hu, List.mem_filterMap.2 ⟨read, hread, ?_⟩⟩⟩
    rw [List.isPrefixOf?_eq_some_iff_append_eq.2 rfl]
    rfl

theorem runs_of_head {p : Char → Bool} {t : Text} (h : t.takeWhile p = []) : runs p t = [([], t)] := by
  cases t with
  | nil => rfl
  | cons c t =>
    have hc : ¬p c = true := fun hc => by simp [hc] at h
    rw [runs, if_neg hc]
    rfl

theorem head?_dashed (last : Option Char) (t : Text) : (dashed t).head? = Piece.property.read? last t := by
  fun_cases dashed t with
  | case1 t =>
    have hhead := head?_runs isNameChar t
    simp only [Piece.read?, List.span_eq_takeWhile_dropWhile] at hhead ⊢
    rw [List.head?_map]
    by_cases hname : t.takeWhile isNameChar = []
    · rw [runs_of_head hname]
      simp [hname]
    · obtain ⟨more, hmore⟩ := List.head?_eq_some_iff.1 hhead
      rw [hmore, List.filter_cons_of_pos (by simpa using hname)]
      simp [hname]
  | case2 =>
    rename_i hother
    rw [Piece.read?, List.head?_nil]
    exact hother

/-- the first way to read a custom property reads all name characters -/
theorem of_head?_dashed {t read rest : Text} (h : (dashed t).head? = some (read, rest)) :
    ∃ name, read = '-' :: '-' :: name ∧ t = read ++ rest ∧ isName name = true ∧
      rest.head?.all (!isNameChar ·) = true := by
  obtain ⟨name, hread, htext, hname⟩ := mem_dashed (List.mem_of_head? h)
  refine ⟨name, hread, htext, hname, ?_⟩
  rw [head?_dashed none] at h
  simp only [Piece.read?, List.span_eq_takeWhile_dropWhile] at h
  split at h
  · rename_i t
    split at h
    · cases h
    · cases h
      have hstop := List.head?_dropWhile_not isNameChar t
      rw [Option.all_eq_true]
      intro c hc
      rw [hc] at hstop
      rw [hstop]
      rfl
  · cases h

theorem leaves_dashed {t read rest : Text} (h : (read, rest) ∈ (dashed t).tail) :
    ∃ c rest', rest = c :: rest' ∧ isNameChar c = true := by
  unfold dashed at h
  split at h
  · rw [← List.map_tail] at h
    obtain ⟨⟨name, rest'⟩, hmem, heq⟩ := List.mem_map.1 h
    obtain ⟨-, rfl⟩ := Prod.mk.inj heq
    exact leaves_runs (List.filter_sublist.tail.subset hmem)
  · cases h

namespace Piece

/-- the characters that a piece can leave over where it could have read them -/
def leaves (c : Char) : Piece → Bool
  | blanks => isBlank c
  | upTo stops => c ∉ stops
  | property => isNameChar c
  | optional d => c == d
  | choice ts => c ∈ overhangs ts
  | word ts => c ∈ overhangs ts
  | wordStart | literal _ | blank | oneOf _ => false

/-- of two alternatives that fit, the longer one is tried first -/
def Ordered : Piece → Prop
  | choice ts => ts.Pairwise fun u v => ¬u <+: v
  | word ts => ts.Pairwise fun u v => ¬u <+: v
  | _ => True

/-- what follows a piece cannot begin with what the piece leaves over, and begins with a word character where a word has
to begin -/
structure Fits (p : Piece) (ps : List Piece) : Prop where
  ordered : p.Ordered
  apart : ps = [] ∨ ∀ c, p.leaves c = true → starts ps (some c) = false
  wordStart : p = .wordStart → ∀ o, starts ps o = true → o.any isWordChar = true

/-- **A later way leaves a character over.** -/
theorem leaves_of_mem_tail {p : Piece} (hp : p.Ordered) {last : Option Char} {t read rest : Text}
    (h : (read, rest) ∈ (p.ways last t).tail) : ∃ c rest', rest = c :: rest' ∧ p.leaves c = true := by
  have hone {p : Char → Bool} : (one p t).tail = [] := by
    cases t with
    | nil => rfl
    | cons c t =>
      rw [one]
      split <;> rfl
  cases p with
  | wordStart =>
    rw [ways] at h
    split at h <;> cases h
  | literal u =>
    have hsingle : (anyOf [u] t).tail = [] := by
      rw [anyOf, List.filterMap_cons]
      split <;> rfl
    rw [ways, hsingle] at h
    cases h
  | choice ts =>
    obtain ⟨c, rest', hrest, hc⟩ := leaves_anyOf hp h
    exact ⟨c, rest', hrest, by simpa [leaves] using hc⟩
  | word ts =>
    obtain ⟨c, rest', hrest, hc⟩ := leaves_anyOf hp h
    exact ⟨c, rest', hrest, by simpa [leaves] using hc⟩
  | blank | oneOf cs =>
    rw [ways, hone] at h
    cases h
  | blanks | upTo stops => exact leaves_runs h
  | optional d =>
    rw [ways] at h
    cases t with
    | nil => cases h
    | cons c t =>
      rw [one] at h
      split at h
      · rename_i hc
        obtain ⟨-, rfl⟩ := Prod.mk.inj (List.mem_singleton.1 h)
        exact ⟨c, t, rfl, by simpa [leaves] using hc⟩
      · cases h
  | property => exact leaves_dashed h

/-- **Reading once is reading the first way.** -/
theorem read?_eq {p : Piece} (hp : p ≠ .wordStart) (last : Option Char) (t : Text) :
    p.read? last t = (p.ways last t).head? := by
  have hchoice (ts : List Text) : firstOf? ts t = (anyOf ts t).head? := by
    unfold firstOf? anyOf
    rw [List.head?_filterMap]
  cases p with
  | wordStart => exact absurd rfl hp
  | literal u => exact hchoice [u]
  | choice ts => exact hchoice ts
  | word ts => exact hchoice ts
  | blank =>
    cases t with
    | nil => rfl
    | cons c t =>
      rw [read?, ways, one]
      split <;> rfl
  | blanks => exact (head?_runs _ _).symm
  | oneOf cs =>
    cases t with
    | nil => rfl
    | cons c t =>
      rw [read?, ways, one]
      simp only [decide_eq_true_eq]
      split <;> rfl
  | upTo stops => exact (head?_runs _ _).symm
  | optional d =>
    cases t with
    | nil => rfl
    | cons c t =>
      rw [read?, ways, one]
      simp only [decide_eq_true_eq]
      split <;> rfl
  | property => exact (head?_dashed last t).symm

end Piece

/-- what follows every piece fits it -/
def Determined : List Piece → Prop
  | [] => True
  | p :: ps => p.Fits ps ∧ Determined ps

/-- a match as the reader gives it -/
def given (m : List Group × Spot) : List Captured × Cursor := (m.1.map Group.captured, m.2.cursor)

theorem advance_cursor (before read rest t : Text) :
    (Spot.cursor ⟨before, t⟩).advance read rest = Spot.cursor ⟨before ++ read, rest⟩ := by
  unfold Spot.cursor Cursor.advance
  simp only [List.getLast?_append, newlines_append]
  rw [Nat.add_right_comm]

theorem readAll?_cons (p : Piece) (ps : List Piece) (k : Cursor) :
    readAll? (p :: ps) k = (p.read? k.last k.rest).bind fun w => (readAll? ps (k.advance w.1 w.2)).map fun m =>
      (if p.isCapture then ⟨k.line, w.1⟩ :: m.1 else m.1, m.2) := by
  rw [readAll?]
  cases p.read? k.last k.rest with
  | none => rfl
  | some w =>
    obtain ⟨read, rest⟩ := w
    show (readAll? ps (k.advance read rest)).bind _ = (readAll? ps (k.advance read rest)).map _
    cases readAll? ps (k.advance read rest) <;> rfl

/-- a later way of a piece comes to nothing -/
theorem ways_of_mem_tail {p : Piece} {ps : List Piece} (hp : p.Fits ps) (hps : ps ≠ []) {s : Spot} {w : Text × Text}
    (hw : w ∈ (p.ways s.before.getLast? s.after).tail) (before : Text) : ways ps ⟨before, w.2⟩ = [] := by
  obtain ⟨read, rest⟩ := w
  obtain ⟨c, rest', rfl, hc⟩ := Piece.leaves_of_mem_tail hp.ordered hw
  exact ways_eq_nil (hp.apart.resolve_left hps c hc)

/-- so a match reads the first way of a piece -/
theorem head?_ways {p : Piece} {ps : List Piece} (hp : p.Fits ps) (s : Spot) :
    (ways (p :: ps) s).head? = (p.ways s.before.getLast? s.after).head?.bind fun w =>
      (ways ps ⟨s.before ++ w.1, w.2⟩).head?.map fun m =>
        (if p.isCapture then ⟨s.before, w.1⟩ :: m.1 else m.1, m.2) := by
  rw [ways]
  cases hways : p.ways s.before.getLast? s.after with
  | nil => rfl
  | cons w more =>
    rw [List.flatMap_cons, List.head?_cons, Option.bind_some, List.head?_append, List.head?_map]
    cases hfirst : (ways ps ⟨s.before ++ w.1, w.2⟩).head? with
    | some m => rfl
    | none =>
      have hps : ps ≠ [] := by
        rintro rfl
        cases hfirst
      have hmore : more.flatMap (fun w => (ways ps ⟨s.before ++ w.1, w.2⟩).map fun m =>
          (if p.isCapture then (⟨s.before, w.1⟩ : Group) :: m.1 else m.1, m.2)) = [] := by
        rw [List.flatMap_eq_nil_iff]
        intro w' hw'
        have htail : w' ∈ (p.ways s.before.getLast? s.after).tail := by rwa [hways]
        rw [ways_of_mem_tail hp hps htail, List.map_nil]
      rw [hmore]
      rfl

theorem head?_ways_eq_some {p : Piece} {ps : List Piece} (hp : p.Fits ps) {s e : Spot} {groups : List Group}
    (h : (ways (p :: ps) s).head? = some (groups, e)) :
    ∃ read rest more, (p.ways s.before.getLast? s.after).head? = some (read, rest) ∧
      (ways ps ⟨s.before ++ read, rest⟩).head? = some (more, e) ∧
      groups = if p.isCapture then ⟨s.before, read⟩ :: more else more := by
  rw [head?_ways hp] at h
  obtain ⟨⟨read, rest⟩, hread, hrest⟩ := Option.bind_eq_some_iff.1 h
  obtain ⟨⟨more, e'⟩, hmore, heq⟩ := Option.map_eq_some_iff.1 hrest
  obtain ⟨rfl, rfl⟩ := Prod.mk.inj heq
  exact ⟨read, rest, more, hread, hmore, rfl⟩

/-- where a word has to begin, the reader looks only at the character in front -/
theorem ways_wordStart {ps : List Piece} (h : Piece.wordStart.Fits ps) (s : Spot) :
    ways (.wordStart :: ps) s = if s.before.getLast?.any isWordChar then [] else ways ps s := by
  have hid : (fun m : List Group × Spot => (m.1, m.2)) = id := rfl
  rw [ways, Piece.ways]
  by_cases hnext : s.after.head?.any isWordChar = true
  · cases hlast : s.before.getLast?.any isWordChar <;> simp [hnext, Piece.isCapture, hid]
  · have hnone : ways ps s = [] := by
      apply ways_eq_nil
      rw [← Bool.not_eq_true]
      intro hstarts
      exact hnext (h.wordStart rfl _ hstarts)
    cases hlast : s.before.getLast?.any isWordChar <;> simp [hnext, hnone]

theorem readAll?_wordStart (ps : List Piece) (s : Spot) :
    readAll? (.wordStart :: ps) s.cursor =
      if s.before.getLast?.any isWordChar then none else readAll? ps s.cursor := by
  have hstay : s.cursor.advance [] s.after = s.cursor := by
    have h := advance_cursor s.before [] s.after s.after
    rwa [List.append_nil] at h
  have hread : Piece.wordStart.read? s.cursor.last s.cursor.rest =
      if s.before.getLast?.any isWordChar then none else some ([], s.after) := rfl
  rw [readAll?_cons, hread]
  split
  · rfl
  · rw [Option.bind_some, hstay]
    cases readAll? ps s.cursor <;> rfl

/-- **Where what follows every piece fits it, reading is matching.** -/
theorem readAll?_eq {ps : List Piece} (h : Determined ps) (s : Spot) :
    readAll? ps s.cursor = (ways ps s).head?.map given := by
  induction ps generalizing s with
  | nil => rfl
  | cons p ps ih =>
    obtain ⟨hp, hps⟩ := h
    by_cases hstart : p = .wordStart
    · subst hstart
      rw [readAll?_wordStart, ways_wordStart hp, ih hps]
      split <;> rfl
    · have hread : p.read? s.cursor.last s.cursor.rest = (p.ways s.before.getLast? s.after).head? :=
        Piece.read?_eq hstart _ _
      rw [readAll?_cons, hread, head?_ways hp]
      cases (p.ways s.before.getLast? s.after).head? with
      | none => rfl
      | some w =>
        have hnext : s.cursor.advance w.1 w.2 = Spot.cursor ⟨s.before ++ w.1, w.2⟩ := advance_cursor _ _ _ _
        rw [Option.bind_some, Option.bind_some, hnext, ih hps]
        cases (ways ps ⟨s.before ++ w.1, w.2⟩).head? with
        | none => rfl
        | some m => cases p.isCapture <;> rfl

/-! ## Searching -/

/-- what belongs to a match already found is passed over -/
theorem searchFrom_read (ps : List Piece) (read rest : Text) (last : Option Char) (line : Nat) :
    searchFrom ps read.length last line (read ++ rest) =
      searchFrom ps 0 (read.getLast?.or last) (line + newlines read) rest := by
  induction read generalizing last line with
  | nil => rfl
  | cons c read ih =>
    have hlast : (read.getLast?.or (some c)) = ((c :: read).getLast?.or last) := by
      cases read with
      | nil => rfl
      | cons d read => simp [List.getLast?_eq_some_getLast]
    have hline : (if c = '\n' then line + 1 else line) + newlines read = line + newlines (c :: read) := by
      rw [newlines_cons c read]
      by_cases hc : c = '\n' <;> simp [newlines, hc, Nat.add_assoc]
    rw [List.length_cons, List.cons_append, searchFrom, ih, hlast, hline]

/-- a search goes on behind the match it finds -/
theorem searchFrom_found {ps : List Piece} {before read : Text} {e : Spot} {captured : List Captured}
    (hbefore : e.before = before ++ read) (hread : read ≠ [])
    (h : readAll? ps (Spot.cursor ⟨before, read ++ e.after⟩) = some (captured, e.cursor)) :
    searchFrom ps 0 before.getLast? (newlines before + 1) (read ++ e.after) =
      captured :: searchFrom ps 0 e.before.getLast? (newlines e.before + 1) e.after := by
  have hbehind := searchFrom_read ps read e.after before.getLast? (newlines before + 1)
  rw [← List.getLast?_append, Nat.add_right_comm, ← newlines_append, ← hbefore] at hbehind
  rw [← hbehind]
  cases read with
  | nil => exact absurd rfl hread
  | cons c read =>
    have hlength : (read ++ e.after).length - e.cursor.rest.length = read.length := by simp [Spot.cursor]
    simp only [Spot.cursor, List.cons_append] at h hlength ⊢
    rw [searchFrom, h]
    simp only [hlength]
    rfl

/-- **A search finds the leftmost matches.** -/
theorem exists_finds {ps : List Piece} (h : Determined ps) (hend : starts ps none = false) (before after : Text) :
    ∃ ms, Finds ps ⟨before, after⟩ ms ∧ searchFrom ps 0 before.getLast? (newlines before + 1) after =
      ms.map fun m => m.groups.map Group.captured := by
  induction hn : after.length using Nat.strong_induction_on generalizing before after with
  | _ n ih =>
    subst hn
    have hread := readAll?_eq h ⟨before, after⟩
    cases hw : (ways ps ⟨before, after⟩).head? with
    | none =>
      rw [hw] at hread
      cases after with
      | nil => exact ⟨[], .done (ways_eq_nil hend), rfl⟩
      | cons c t =>
        obtain ⟨ms, hms, hsearch⟩ := ih t.length (by simp) (before ++ [c]) t rfl
        refine ⟨ms, .skip (List.head?_eq_none_iff.1 hw) hms, ?_⟩
        have hline : (if c = '\n' then newlines before + 1 + 1 else newlines before + 1) =
            newlines (before ++ [c]) + 1 := by
          by_cases hc : c = '\n' <;> simp [newlines, hc]
        have hlast : some c = (before ++ [c]).getLast? := by simp
        rw [← hsearch, searchFrom]
        simp only [Spot.cursor] at hread
        rw [hread, hline, hlast]
        rfl
    | some m =>
      obtain ⟨groups, e⟩ := m
      rw [hw] at hread
      obtain ⟨⟨read, hbefore, hafter, hnothing⟩, -⟩ := ways_spec (List.mem_of_head? hw)
      simp only at hafter hbefore
      subst hafter
      have hne : read ≠ [] := by
        intro hempty
        rw [hnothing hempty] at hend
        cases hend
      have hshort : e.after.length < (read ++ e.after).length := by
        have := List.length_pos_of_ne_nil hne
        rw [List.length_append]
        omega
      obtain ⟨ms, hms, hsearch⟩ := ih _ hshort e.before e.after rfl
      refine ⟨_, .found hw hms, ?_⟩
      rw [searchFrom_found hbefore hne hread, hsearch]
      rfl

/-- **There is one list of leftmost matches.** -/
theorem Finds.unique {ps : List Piece} {s : Spot} {ms ms' : List Match} (h : Finds ps s ms) (h' : Finds ps s ms') :
    ms = ms' := by
  induction h generalizing ms' with
  | done hnone =>
    cases h' with
    | done => rfl
    | found hsome =>
      rw [hnone] at hsome
      cases hsome
  | skip hnone _ ih =>
    cases h' with
    | skip _ hms => exact ih hms
    | found hsome =>
      rw [hnone] at hsome
      cases hsome
  | found hsome _ ih =>
    cases h' with
    | done hnone =>
      rw [hnone] at hsome
      cases hsome
    | skip hnone =>
      rw [hnone] at hsome
      cases hsome
    | found hsome' hms =>
      obtain ⟨rfl, rfl⟩ := Prod.mk.inj (Option.some.inj (hsome.symm.trans hsome'))
      rw [ih hms]

/-- **What a search finds** is the one list of leftmost matches. -/
theorem exists_search {ps : List Piece} (h : Determined ps) (hend : starts ps none = false) (t : Text) :
    ∃ found, (∀ ms, Finds ps ⟨[], t⟩ ms ↔ ms = found) ∧
      search ps t = found.map fun m => m.groups.map Group.captured := by
  obtain ⟨found, hfound, hsearch⟩ := exists_finds h hend [] t
  refine ⟨found, ?_, hsearch⟩
  intro ms
  constructor
  · intro hms
    exact hms.unique hfound
  · rintro rfl
    exact hfound

/-- a match found is the preferred one at its place -/
theorem Finds.preferred {ps : List Piece} {s : Spot} {ms : List Match} (h : Finds ps s ms) {m : Match} (hm : m ∈ ms) :
    (ways ps m.start).head? = some (m.groups, m.stop) ∧ s.before <+: m.start.before ∧
      m.start.before ++ m.start.after = s.before ++ s.after := by
  induction h with
  | done => cases hm
  | skip _ _ ih =>
    obtain ⟨hhead, hfront, htext⟩ := ih hm
    refine ⟨hhead, (List.prefix_append _ _).trans hfront, ?_⟩
    rw [htext, List.append_assoc]
    rfl
  | found hsome _ ih =>
    rcases List.mem_cons.1 hm with rfl | hm
    · exact ⟨hsome, List.prefix_refl _, rfl⟩
    · obtain ⟨⟨read, hbefore, hafter, -⟩, -⟩ := ways_spec (List.mem_of_head? hsome)
      obtain ⟨hhead, hfront, htext⟩ := ih hm
      rw [hbefore] at hfront htext
      refine ⟨hhead, (List.prefix_append _ _).trans hfront, ?_⟩
      rw [htext, hafter, List.append_assoc]

/-- matches are found from left to right, and none begins in another -/
theorem Finds.ordered {ps : List Piece} {s : Spot} {ms : List Match} (h : Finds ps s ms) :
    ms.Pairwise fun m m' => m.stop.before <+: m'.start.before := by
  induction h with
  | done => exact List.Pairwise.nil
  | skip _ _ ih => exact ih
  | found _ hrest ih =>
    refine List.pairwise_cons.2 ⟨?_, ih⟩
    intro m hm
    exact (hrest.preferred hm).2.1

end StyleCheck.Script
