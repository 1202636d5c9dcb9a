/-
Conflicts of a merge, said without the machine.

Every layer that holds a selector offers its last body for it (`offers`). A selector with two offers or more is
contested, and its conflict is read off the offers alone: the first source loses, the last one wins, all but the last
are displaced in order, and it is harmless when the last two bodies agree up to blanks at their ends. Conflicts come in
the order in which their selectors were met again (`metAgain`).

The merge reaches this by three patches: `first`, `override` and `amend`. `Records` is what one conflict has to say
about some offers, `records_first`, `records_override` and `records_amend` are the three patches, and `Inv` ties a
state to the layers done and the rules of the current layer that were read.
- `inv_apply`: one rule keeps the invariant; `inv_run`: so does every run;
- `conflicts_exact`: which conflicts a merge reports, in which order, and what is in them.
-/
import StyleCheck.Proofs.Cascade.Settled

namespace StyleCheck.Cascade

open Distinct

/-! ## Offers -/

/-- every layer has a source of its own, which all its rules carry -/
structure OwnSources (layers : List (SourceId × List Rule)) : Prop where
  carried : ∀ l ∈ layers, ∀ r ∈ l.2, r.source = l.1
  distinct : (layers.map (·.1)).Nodup

def selectorsOf (layers : List (SourceId × List Rule)) : List Text := layers.flatMap fun l => l.2.map (·.selector)

/-- what every layer that holds a selector offers for it: the layer's source and its last body -/
def offers (layers : List (SourceId × List Rule)) (s : Text) : List (SourceId × Text) :=
  layers.filterMap fun l => (last? l.2 s).map fun r => (l.1, r.body)

/-- the selectors that are met in a layer although `earlier` or a layer before it holds them, at every meeting -/
def metAgain (earlier : List Text) : List (SourceId × List Rule) → List Text
  | [] => []
  | l :: ls => (l.2.map (·.selector)).filter earlier.contains ++ metAgain (earlier ++ l.2.map (·.selector)) ls

theorem offers_append (a b : List (SourceId × List Rule)) (s : Text) : offers (a ++ b) s = offers a s ++ offers b s :=
  List.filterMap_append

theorem offers_singleton (src : SourceId) (rules : List Rule) (s : Text) :
    offers [(src, rules)] s = ((last? rules s).map fun r => (src, r.body)).toList := by
  cases h : last? rules s <;> simp [offers, h]

theorem offers_eq_nil {layers : List (SourceId × List Rule)} {s : Text} :
    offers layers s = [] ↔ s ∉ selectorsOf layers := by
  unfold offers selectorsOf
  rw [List.filterMap_eq_nil_iff, List.mem_flatMap]
  constructor
  · rintro h ⟨l, hl, hs⟩
    exact last?_eq_none.1 (Option.map_eq_none_iff.1 (h l hl)) hs
  · intro h l hl
    exact Option.map_eq_none_iff.2 (last?_eq_none.2 fun hs => h ⟨l, hl, hs⟩)

theorem offers_of_not_mem (done : List (SourceId × List Rule)) (src : SourceId) {cur : List Rule} {s : Text}
    (h : s ∉ cur.map (·.selector)) : offers (done ++ [(src, cur)]) s = offers done s := by
  rw [offers_append, offers_singleton, last?_eq_none.2 h]
  simp

/-- a layer that holds the selector makes one offer, the last -/
theorem offers_of_mem (done : List (SourceId × List Rule)) (src : SourceId) {cur : List Rule} {s : Text}
    (h : s ∈ cur.map (·.selector)) : ∃ body, offers (done ++ [(src, cur)]) s = offers done s ++ [(src, body)] := by
  cases hl : last? cur s with
  | none => exact absurd h (last?_eq_none.1 hl)
  | some r => exact ⟨r.body, by rw [offers_append, offers_singleton, hl]; rfl⟩

/-- the next rule of the current layer renews its offer for one selector -/
theorem offers_read (done : List (SourceId × List Rule)) (src : SourceId) (cur : List Rule) (r : Rule) (s : Text) :
    offers (done ++ [(src, cur ++ [r])]) s =
      if r.selector = s then offers done s ++ [(src, r.body)] else offers (done ++ [(src, cur)]) s := by
  rw [offers_append, offers_append, offers_singleton, offers_singleton, last?_append, last?_singleton]
  split <;> simp

theorem sources_offers (layers : List (SourceId × List Rule)) (s : Text) :
    ((offers layers s).map (·.1)).Sublist (layers.map (·.1)) := by
  induction layers with
  | nil => simp [offers]
  | cons l ls ih =>
    rw [← List.singleton_append, offers_append, List.map_append, List.map_append]
    refine List.Sublist.append ?_ ih
    rw [offers_singleton]
    cases last? l.2 s <;> simp

theorem metAgain_append (earlier : List Text) (a b : List (SourceId × List Rule)) :
    metAgain earlier (a ++ b) = metAgain earlier a ++ metAgain (earlier ++ selectorsOf a) b := by
  induction a generalizing earlier with
  | nil => simp [metAgain, selectorsOf]
  | cons l ls ih => simp [metAgain, ih, selectorsOf]

theorem metAgain_concat (done : List (SourceId × List Rule)) (src : SourceId) (cur : List Rule) :
    metAgain [] (done ++ [(src, cur)]) =
      metAgain [] done ++ (cur.map (·.selector)).filter (selectorsOf done).contains := by
  simp [metAgain_append, metAgain]

/-- the next rule of the current layer is one more meeting if an earlier layer holds its selector -/
theorem metAgain_read (done : List (SourceId × List Rule)) (src : SourceId) (cur : List Rule) (r : Rule) :
    metAgain [] (done ++ [(src, cur ++ [r])]) =
      metAgain [] (done ++ [(src, cur)]) ++ if r.selector ∈ selectorsOf done then [r.selector] else [] := by
  rw [metAgain_concat, metAgain_concat, List.map_append, List.filter_append, List.append_assoc]
  by_cases h : r.selector ∈ selectorsOf done <;> simp [h]

/-- a selector is met again if and only if two layers hold it -/
theorem mem_metAgain {layers : List (SourceId × List Rule)} {s : Text} :
    s ∈ metAgain [] layers ↔ 2 ≤ (offers layers s).length := by
  induction layers using List.reverseRecOn with
  | nil => simp [metAgain, offers]
  | append_singleton done l ih =>
    obtain ⟨src, cur⟩ := l
    rw [metAgain_concat, List.mem_append, ih, List.mem_filter, List.contains_iff_mem]
    by_cases hc : s ∈ cur.map (·.selector)
    · obtain ⟨body, hb⟩ := offers_of_mem done src hc
      have hd : s ∈ selectorsOf done ↔ 1 ≤ (offers done s).length := by
        rw [← not_iff_not, ← offers_eq_nil, ← List.length_eq_zero_iff]
        omega
      rw [hb, List.length_append, List.length_singleton, hd]
      simp only [hc, true_and]
      omega
    · rw [offers_of_not_mem done src hc]
      simp [hc]

/-! ## One conflict and its patches -/

/-- `c` says what there is to say about the offers `before`, `p` and `l` -/
structure Records (before : List (SourceId × Text)) (p l : SourceId × Text) (c : Contest) : Prop where
  losing : some c.conflict.losing = (before ++ [p]).head?.map (·.1)
  winning : c.conflict.winning = l.1
  displaced : c.conflict.displaced = (before ++ [p]).map (·.1)
  identical : c.conflict.identical = (Text.trim p.2 == Text.trim l.2)
  body : c.displacedBody = Text.trim p.2

theorem records_first (t : Slot) (r : Rule) :
    Records [] (t.rule.source, t.rule.body) (r.source, r.body) (Contest.first t r) :=
  ⟨rfl, rfl, rfl, rfl, rfl⟩

theorem records_amend {before : List (SourceId × Text)} {p l : SourceId × Text} {c : Contest} (r : Rule)
    (h : Records before p l c) : Records before p (r.source, r.body) (c.amend r) where
  losing := h.losing
  winning := rfl
  displaced := h.displaced
  identical := by rw [← h.body]; rfl
  body := h.body

/-- the source displaced now is not the one displaced last, so it is listed -/
theorem records_override {before : List (SourceId × Text)} {p : SourceId × Text} {c : Contest} {t : Slot} (r : Rule)
    (h : Records before p (t.rule.source, t.rule.body) c) (hne : p.1 ≠ t.rule.source) :
    Records (before ++ [p]) (t.rule.source, t.rule.body) (r.source, r.body) (c.override t r) where
  losing := by
    cases before with
    | nil => exact h.losing
    | cons b bs => exact h.losing
  winning := rfl
  displaced := by
    have hl : c.conflict.displaced.getLast? ≠ some t.rule.source := by
      rw [h.displaced]
      simpa using hne
    unfold Contest.override
    rw [if_neg hl, h.displaced]
    simp
  identical := rfl
  body := rfl

@[simp] theorem selector_first (t : Slot) (r : Rule) : (Contest.first t r).conflict.selector = r.selector := rfl

@[simp] theorem selector_amend (c : Contest) (r : Rule) : (c.amend r).conflict.selector = c.conflict.selector := rfl

@[simp] theorem selector_override (c : Contest) (t : Slot) (r : Rule) :
    (c.override t r).conflict.selector = c.conflict.selector := rfl

/-! ## The slot of a selector -/

def St.slot? (st : St) (s : Text) : Option Slot := st.slots.find? (·.rule.selector = s)

theorem selector_of_slot? {st : St} {s : Text} {t : Slot} (h : st.slot? s = some t) : t.rule.selector = s := by
  simpa using List.find?_some h

theorem find?_replace (layer : Nat) (r : Rule) (s : Text) (slots : List Slot) :
    (slots.map fun t => if t.rule.selector = r.selector then t.replace layer r else t).find? (·.rule.selector = s) =
      (slots.find? (·.rule.selector = s)).map fun t =>
        if t.rule.selector = r.selector then t.replace layer r else t := by
  rw [List.find?_map]
  congr 2
  funext t
  by_cases ht : t.rule.selector = r.selector <;> simp [Slot.replace, ht]

theorem slot?_apply_of_ne (layer : Nat) (st : St) {r : Rule} {s : Text} (h : r.selector ≠ s) :
    (apply layer st r).slot? s = st.slot? s := by
  unfold apply St.slot?
  cases st.slots.find? (·.rule.selector = r.selector) with
  | none => simp [h]
  | some _ =>
    rw [find?_replace]
    cases hf : st.slots.find? (·.rule.selector = s) with
    | none => rfl
    | some t =>
      have ht : t.rule.selector ≠ r.selector := fun he => h (he.symm.trans (selector_of_slot? hf))
      rw [Option.map_some, if_neg ht]

/-- after a rule, the slot of its selector has its body and source and belongs to its layer -/
theorem slot?_apply_self (layer : Nat) (st : St) (r : Rule) :
    ∃ t, (apply layer st r).slot? r.selector = some t ∧
      t.rule.source = r.source ∧ t.rule.body = r.body ∧ t.layer = layer := by
  unfold apply St.slot?
  cases hf : st.slots.find? (·.rule.selector = r.selector) with
  | none => exact ⟨⟨{ r with position := st.slots.length }, layer⟩, by simp [List.find?_append, hf], rfl, rfl, rfl⟩
  | some t =>
    refine ⟨t.replace layer r, ?_, rfl, rfl, rfl⟩
    rw [find?_replace, hf, Option.map_some, if_pos (selector_of_slot? hf)]

theorem contests_apply_none {layer : Nat} {st : St} {r : Rule} (h : st.slot? r.selector = none) :
    (apply layer st r).contests = st.contests := by
  unfold St.slot? at h
  simp only [apply, h]

theorem contests_apply_some {layer : Nat} {st : St} {r : Rule} {t : Slot} (h : st.slot? r.selector = some t) :
    (apply layer st r).contests = contested layer t r st.contests := by
  unfold St.slot? at h
  simp only [apply, h]

/-! ## The conflicts of some layers -/

/-- `c` is the conflict over its selector -/
def Fits (layers : List (SourceId × List Rule)) (c : Contest) : Prop :=
  ∃ before p l, offers layers c.conflict.selector = before ++ [p, l] ∧ Records before p l c

structure Contested (layers : List (SourceId × List Rule)) (cs : List Contest) : Prop where
  order : cs.map (·.conflict.selector) = (metAgain [] layers).eraseDups
  fits : ∀ c ∈ cs, Fits layers c

variable {done : List (SourceId × List Rule)} {src : SourceId} {cur : List Rule} {cs : List Contest}
variable {r : Rule} {t : Slot}

theorem fits_of_ne {c : Contest} (h : Fits (done ++ [(src, cur)]) c) (hne : r.selector ≠ c.conflict.selector) :
    Fits (done ++ [(src, cur ++ [r])]) c := by
  unfold Fits
  rw [offers_read, if_neg hne]
  exact h

/-- the current layer renews its offer -/
theorem fits_amend {c : Contest} (h : Fits (done ++ [(src, cur)]) c) (hc : c.conflict.selector = r.selector)
    (hs : r.source = src) (hm : r.selector ∈ cur.map (·.selector)) :
    Fits (done ++ [(src, cur ++ [r])]) (c.amend r) := by
  obtain ⟨before, p, l, ho, hr⟩ := h
  obtain ⟨body, hb⟩ := offers_of_mem done src hm
  have hd : before ++ [p] = offers done r.selector := by
    rw [hc, hb, List.append_cons before p [l]] at ho
    exact (List.append_inj' ho rfl).1.symm
  refine ⟨before, p, (r.source, r.body), ?_, records_amend r hr⟩
  rw [selector_amend, hc, offers_read, if_pos rfl, ← hd, hs]
  simp

/-- the current layer makes its first offer where there were two before -/
theorem fits_override {c : Contest} (h : Fits (done ++ [(src, cur)]) c)
    (hc : c.conflict.selector = r.selector) (hs : r.source = src) (hm : r.selector ∉ cur.map (·.selector))
    (hd : (done.map (·.1)).Nodup)
    (ht : (offers (done ++ [(src, cur)]) r.selector).getLast? = some (t.rule.source, t.rule.body)) :
    Fits (done ++ [(src, cur ++ [r])]) (c.override t r) := by
  obtain ⟨before, p, l, ho, hr⟩ := h
  rw [hc] at ho
  rw [ho] at ht
  rw [offers_of_not_mem done src hm] at ho
  obtain rfl : l = (t.rule.source, t.rule.body) := by simpa using ht
  have hne : p.1 ≠ t.rule.source := by
    have hn := hd.sublist (sources_offers done r.selector)
    rw [ho, List.map_append] at hn
    simpa using (List.nodup_append.1 hn).2.1
  refine ⟨before ++ [p], _, (r.source, r.body), ?_, records_override r hr hne⟩
  rw [selector_override, hc, offers_read, if_pos rfl, ho, hs]
  simp

/-- the current layer makes the second offer of all -/
theorem fits_first (hs : r.source = src) (hd : offers done r.selector = [(t.rule.source, t.rule.body)]) :
    Fits (done ++ [(src, cur ++ [r])]) (Contest.first t r) := by
  refine ⟨[], _, (r.source, r.body), ?_, records_first t r⟩
  rw [selector_first, offers_read, if_pos rfl, hd, hs]
  rfl

theorem selectors_patch (s : Text) (f : Contest → Contest) (hf : ∀ c, (f c).conflict.selector = c.conflict.selector)
    (cs : List Contest) :
    (cs.map fun c => if c.conflict.selector = s then f c else c).map (·.conflict.selector) =
      cs.map (·.conflict.selector) := by
  rw [List.map_map]
  refine List.map_congr_left fun c _ => ?_
  by_cases hc : c.conflict.selector = s <;> simp [hc, hf]

theorem fits_patch {f : Contest → Contest} (h : ∀ c ∈ cs, Fits (done ++ [(src, cur)]) c)
    (hf : ∀ c ∈ cs, c.conflict.selector = r.selector → Fits (done ++ [(src, cur ++ [r])]) (f c)) :
    ∀ c ∈ cs.map fun c => if c.conflict.selector = r.selector then f c else c,
      Fits (done ++ [(src, cur ++ [r])]) c := by
  intro c' hc'
  obtain ⟨c, hc, rfl⟩ := List.mem_map.1 hc'
  split
  · rename_i he
    exact hf c hc he
  · rename_i he
    exact fits_of_ne (h c hc) (Ne.symm he)

theorem Contested.mem_iff {layers : List (SourceId × List Rule)} (h : Contested layers cs) (s : Text) :
    s ∈ cs.map (·.conflict.selector) ↔ 2 ≤ (offers layers s).length := by
  rw [h.order, List.mem_eraseDups, mem_metAgain]

/-- a selector that no layer holds yet -/
theorem contested_unseen (h : Contested (done ++ [(src, cur)]) cs)
    (ho : offers (done ++ [(src, cur)]) r.selector = []) :
    Contested (done ++ [(src, cur ++ [r])]) cs := by
  refine ⟨?_, ?_⟩
  · have hn : r.selector ∉ selectorsOf done := by
      rw [offers_append, List.append_eq_nil_iff] at ho
      exact offers_eq_nil.1 ho.1
    rw [metAgain_read, if_neg hn, List.append_nil, h.order]
  · intro c hc
    refine fits_of_ne (h.fits c hc) ?_
    intro he
    have hc' := (h.mem_iff _).1 (List.mem_map_of_mem hc)
    rw [← he, ho] at hc'
    simp at hc'

/-- a selector that the current layer holds -/
theorem contested_amend (h : Contested (done ++ [(src, cur)]) cs) (hs : r.source = src)
    (hm : r.selector ∈ cur.map (·.selector)) :
    Contested (done ++ [(src, cur ++ [r])])
      (cs.map fun c => if c.conflict.selector = r.selector then c.amend r else c) := by
  refine ⟨?_, fits_patch h.fits fun c hc he => fits_amend (h.fits c hc) he hs hm⟩
  rw [selectors_patch _ _ (fun c => selector_amend c r), h.order, metAgain_read]
  split
  · rename_i hd
    rw [eraseDups_concat, if_pos]
    rw [metAgain_concat]
    exact List.mem_append_right _ (List.mem_filter.2 ⟨hm, by simpa using hd⟩)
  · rw [List.append_nil]

/-- a selector that other layers hold: its conflict is overridden or opened -/
theorem contested_displace (h : Contested (done ++ [(src, cur)]) cs) (hs : r.source = src)
    (hd : (done.map (·.1)).Nodup) (hm : r.selector ∉ cur.map (·.selector))
    (ht : (offers (done ++ [(src, cur)]) r.selector).getLast? = some (t.rule.source, t.rule.body)) :
    Contested (done ++ [(src, cur ++ [r])])
      (if cs.any (·.conflict.selector = r.selector) then
        cs.map fun c => if c.conflict.selector = r.selector then c.override t r else c
      else cs ++ [Contest.first t r]) := by
  have ho := offers_of_not_mem done src hm
  have hr : r.selector ∈ selectorsOf done := by
    by_contra hc
    rw [ho, offers_eq_nil.2 hc] at ht
    simp at ht
  have hany : cs.any (·.conflict.selector = r.selector) = true ↔ r.selector ∈ cs.map (·.conflict.selector) := by
    simp
  split
  · rename_i hc
    rw [hany] at hc
    refine ⟨?_, fits_patch h.fits fun c hc he => fits_override (h.fits c hc) he hs hm hd ht⟩
    rw [selectors_patch _ _ (fun c => selector_override c t r), metAgain_read, if_pos hr, eraseDups_concat, if_pos,
      h.order]
    rwa [h.order, List.mem_eraseDups] at hc
  · rename_i hc
    rw [hany] at hc
    refine ⟨?_, ?_⟩
    · rw [metAgain_read, if_pos hr, eraseDups_concat, if_neg, List.map_append, h.order]
      · rfl
      · rwa [h.order, List.mem_eraseDups] at hc
    · intro c hc'
      rcases List.mem_append.1 hc' with hc' | hc'
      · exact fits_of_ne (h.fits c hc') fun he => hc (he ▸ List.mem_map_of_mem hc')
      · rw [List.mem_singleton.1 hc']
        refine fits_first hs ?_
        rw [h.mem_iff, ho] at hc
        rw [ho] at ht
        -- there was a slot, so at least one offer, and there is no conflict yet, so no two
        match hx : offers done r.selector with
        | [] => rw [hx] at ht; simp at ht
        | [x] => rw [hx] at ht; simpa using ht
        | _ :: _ :: _ => rw [hx] at hc; simp at hc

/-! ## The invariant -/

/-- the state after the layers `done` and the rules `cur` of the layer from `src` -/
structure Inv (done : List (SourceId × List Rule)) (src : SourceId) (cur : List Rule) (st : St) : Prop where
  absent : ∀ s, st.slot? s = none → offers (done ++ [(src, cur)]) s = []
  /-- a slot holds the last offer for its selector -/
  present : ∀ s t, st.slot? s = some t →
    (offers (done ++ [(src, cur)]) s).getLast? = some (t.rule.source, t.rule.body)
  layer : ∀ s t, st.slot? s = some t →
    t.layer ≤ done.length ∧ (t.layer = done.length ↔ s ∈ cur.map (·.selector))
  contested : Contested (done ++ [(src, cur)]) st.contests

variable {st : St}

theorem inv_contests (h : Inv done src cur st) (hs : r.source = src) (hd : (done.map (·.1)).Nodup) :
    Contested (done ++ [(src, cur ++ [r])]) (apply done.length st r).contests := by
  cases ht : st.slot? r.selector with
  | none =>
    rw [contests_apply_none ht]
    exact contested_unseen h.contested (h.absent _ ht)
  | some t =>
    have hl := (h.layer _ _ ht).2
    rw [contests_apply_some ht]
    unfold contested
    split
    · rename_i htl
      exact contested_amend h.contested hs (hl.1 htl)
    · rename_i htl
      exact contested_displace h.contested hs hd (fun hm => htl (hl.2 hm)) (h.present _ _ ht)

/-- **One rule keeps the invariant.** -/
theorem inv_apply (h : Inv done src cur st) (hs : r.source = src) (hd : (done.map (·.1)).Nodup) :
    Inv done src (cur ++ [r]) (apply done.length st r) := by
  obtain ⟨t0, ht0, hsrc, hbody, hlayer⟩ := slot?_apply_self done.length st r
  refine ⟨?_, ?_, ?_, inv_contests h hs hd⟩
  · intro s hn
    have hne : r.selector ≠ s := fun he => by rw [← he, ht0] at hn; cases hn
    rw [slot?_apply_of_ne _ _ hne] at hn
    rw [offers_read, if_neg hne]
    exact h.absent s hn
  · intro s t ht
    rw [offers_read]
    split
    · rename_i he
      obtain rfl : t0 = t := by rw [← he, ht0] at ht; exact Option.some.inj ht
      rw [hsrc, hbody, hs]
      simp
    · rename_i hne
      rw [slot?_apply_of_ne _ _ hne] at ht
      exact h.present s t ht
  · intro s t ht
    by_cases he : r.selector = s
    · obtain rfl : t0 = t := by rw [← he, ht0] at ht; exact Option.some.inj ht
      simp [hlayer, he]
    · rw [slot?_apply_of_ne _ _ he] at ht
      have := h.layer s t ht
      simpa [Ne.symm he] using this

theorem inv_next (h : Inv done src cur st) (src' : SourceId) : Inv (done ++ [(src, cur)]) src' [] st := by
  have ho : ∀ s, offers (done ++ [(src, cur)] ++ [(src', [])]) s = offers (done ++ [(src, cur)]) s := by
    intro s
    exact offers_of_not_mem _ src' (by simp)
  have hm : metAgain [] (done ++ [(src, cur)] ++ [(src', [])]) = metAgain [] (done ++ [(src, cur)]) := by
    rw [metAgain_concat]
    simp
  refine ⟨?_, ?_, ?_, ?_, ?_⟩
  · intro s hn
    rw [ho]
    exact h.absent s hn
  · intro s t ht
    rw [ho]
    exact h.present s t ht
  · intro s t ht
    have := (h.layer s t ht).1
    simp only [List.length_append, List.length_singleton, List.map_nil, List.not_mem_nil, iff_false]
    omega
  · rw [hm]
    exact h.contested.order
  · intro c hc
    unfold Fits
    rw [ho]
    exact h.contested.fits c hc

theorem inv_start (src : SourceId) : Inv [] src [] start :=
  ⟨fun _ _ => rfl, fun _ _ h => by simp [St.slot?, start] at h, fun _ _ h => by simp [St.slot?, start] at h, rfl,
    by simp [start]⟩

theorem inv_applyLayer (h : Inv done src cur st) (rules : List Rule) (hs : ∀ r ∈ rules, r.source = src)
    (hd : (done.map (·.1)).Nodup) : Inv done src (cur ++ rules) (applyLayer st (rules, done.length)) := by
  unfold applyLayer
  induction rules generalizing cur st with
  | nil => simpa using h
  | cons r rules ih =>
    have h' := ih (inv_apply h (hs r List.mem_cons_self) hd) fun r' hr' => hs r' (List.mem_cons_of_mem r hr')
    simpa using h'

def run (layers : List (SourceId × List Rule)) : St := (layers.map (·.2)).zipIdx.foldl applyLayer start

theorem run_concat (layers : List (SourceId × List Rule)) (src : SourceId) (rules : List Rule) :
    run (layers ++ [(src, rules)]) = applyLayer (run layers) (rules, layers.length) := by
  simp [run, List.zipIdx_append]

/-- **Every run keeps the invariant.** -/
theorem inv_run (h : OwnSources (done ++ [(src, cur)])) : Inv done src cur (run (done ++ [(src, cur)])) := by
  have hs : ∀ r ∈ cur, r.source = src := h.carried (src, cur) (by simp)
  have hd : (done.map (·.1)).Nodup := by
    have := h.distinct
    rw [List.map_append] at this
    exact (List.nodup_append.1 this).1
  rw [run_concat]
  -- the layers done were themselves a run that ended in its last layer
  induction done using List.reverseRecOn generalizing src cur with
  | nil => exact inv_applyLayer (inv_start src) cur hs hd
  | append_singleton done l ih =>
    have ho : OwnSources (done ++ [l]) :=
      ⟨fun l' hl' => h.carried l' (List.mem_append_left _ hl'), hd⟩
    obtain ⟨src', cur'⟩ := l
    have hd' : (done.map (·.1)).Nodup := hd.sublist (by simp)
    have hl := ih ho (ho.carried (src', cur') (by simp)) hd'
    rw [run_concat]
    exact inv_applyLayer (inv_next hl src) cur hs hd

/-! ## The conflicts of a merge -/

theorem contested_run {layers : List (SourceId × List Rule)} (h : OwnSources layers) :
    Contested layers (run layers).contests := by
  cases layers using List.reverseRecOn with
  | nil => exact ⟨rfl, by simp [run, start]⟩
  | append_singleton done l => exact (inv_run h).contested

theorem length_offers (layers : List (SourceId × List Rule)) (s : Text) :
    (offers layers s).length = (layers.filter fun l => s ∈ l.2.map (·.selector)).length := by
  induction layers with
  | nil => rfl
  | cons l ls ih =>
    rw [← List.singleton_append, offers_append, offers_singleton, List.length_append, ih, List.singleton_append,
      List.filter_cons]
    by_cases hs : s ∈ l.2.map (·.selector)
    · obtain ⟨r, hr⟩ := Option.ne_none_iff_exists'.1 fun hn => last?_eq_none.1 hn hs
      rw [hr, if_pos (decide_eq_true hs), List.length_cons, Nat.add_comm]
      rfl
    · rw [last?_eq_none.2 hs, if_neg (by rwa [decide_eq_true_iff]), Option.map_none, Option.toList_none,
        List.length_nil, Nat.zero_add]

/-- **The conflicts of a merge.** Where every layer has a source of its own, there is one conflict for each selector
that two layers hold, in the order in which these selectors were first met again. The source of the first layer that
holds it loses, the source of the last one wins, those of all but the last are displaced, and the conflict is harmless
when the last bodies of the last two such layers agree up to blanks at their ends. -/
theorem conflicts_exact (layers : List (SourceId × List Rule)) (h : OwnSources layers) :
    let conflicts := (merge (layers.map (·.2))).conflicts
    conflicts.map (·.selector) = (metAgain [] layers).eraseDups ∧
    (conflicts.map (·.selector)).Nodup ∧
    (∀ s, s ∈ conflicts.map (·.selector) ↔ 2 ≤ (layers.filter fun l => s ∈ l.2.map (·.selector)).length) ∧
    ∀ c ∈ conflicts, ∃ before previous last,
      offers layers c.selector = before ++ [previous, last] ∧
      some c.losing = (offers layers c.selector).head?.map (·.1) ∧
      c.winning = last.1 ∧
      c.displaced = (before ++ [previous]).map (·.1) ∧
      (c.identical = true ↔ Text.trim previous.2 = Text.trim last.2) := by
  intro conflicts
  have hc : Contested layers (run layers).contests := contested_run h
  have hm : conflicts.map (·.selector) = (run layers).contests.map (·.conflict.selector) := List.map_map
  refine ⟨hm.trans hc.order, ?_, ?_, ?_⟩
  · rw [hm, hc.order]
    exact nodup_eraseDups _
  · intro s
    rw [hm, hc.mem_iff, length_offers]
  · intro c hmem
    obtain ⟨k, hk, rfl⟩ := List.mem_map.1 hmem
    obtain ⟨before, previous, last, ho, hr⟩ := hc.fits k hk
    refine ⟨before, previous, last, ho, ?_, hr.winning, hr.displaced, ?_⟩
    · rw [ho, hr.losing]
      cases before <;> rfl
    · rw [hr.identical, beq_iff_eq]

/-- three layers that hold one selector, the second of them twice, and a selector of the second layer alone -/
def threeLayers : List (SourceId × List Rule) :=
  let rule (source : Nat) (selector body : Char) : Rule := ⟨[selector], [body], ⟨source⟩, 0, .plain, 1, 1⟩
  [(⟨0⟩, [rule 0 'a' 'x']),
    (⟨1⟩, [rule 1 'a' 'y', rule 1 'b' 'y', rule 1 'a' 'z', rule 1 'b' 'z']),
    (⟨2⟩, [rule 2 'a' 'z'])]

theorem conflicts_exact_three :
    let conflicts := (merge (threeLayers.map (·.2))).conflicts
    OwnSources threeLayers ∧
    conflicts = [⟨['a'], ⟨0⟩, ⟨2⟩, [⟨0⟩, ⟨1⟩], true⟩] ∧
    conflicts.map (·.selector) = (metAgain [] threeLayers).eraseDups ∧
    (conflicts.map (·.selector)).Nodup ∧
    (∀ s, s ∈ conflicts.map (·.selector) ↔ 2 ≤ (threeLayers.filter fun l => s ∈ l.2.map (·.selector)).length) ∧
    ∀ c ∈ conflicts, ∃ before previous last,
      offers threeLayers c.selector = before ++ [previous, last] ∧
      some c.losing = (offers threeLayers c.selector).head?.map (·.1) ∧
      c.winning = last.1 ∧
      c.displaced = (before ++ [previous]).map (·.1) ∧
      (c.identical = true ↔ Text.trim previous.2 = Text.trim last.2) := by
  intro conflicts
  have h : OwnSources threeLayers := ⟨by decide, by decide⟩
  exact ⟨h, by decide, conflicts_exact threeLayers h⟩

end StyleCheck.Cascade
