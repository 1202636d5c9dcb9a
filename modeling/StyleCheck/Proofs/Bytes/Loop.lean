/-
Loops over the bytes of a text.

The body of a loop reads the byte at the index and says where to go on, which is always further to the right, or leaves
the loop with a result. `run` is what the whole loop gives, `passing` the state in which it passes over a byte, be it
one that is read or one that is skipped.
- `Leads.run_eq`, `Leads.passing_eq`: both may be found out by going on from wherever the loop leads to;
- `le_stop`: a loop that looks for a position finds one to the right of where it began;
- `leads_char`, `leads_escape`: where high bytes do nothing, a loop goes from boundary to boundary, also if it skips two
  bytes at a backslash;
- `Passes.part`: how all characters of a text are passed over is found out part by part.
-/
import StyleCheck.Proofs.Bytes.Positions

namespace StyleCheck

open Text

/-- a loop with states in `σ` that may be left with a result in `ρ` -/
structure Loop (ρ σ : Type) where
  bytes : List UInt8
  /-- index, the byte there and state; where to go on and in which state -/
  body : Nat → UInt8 → σ → Except ρ (Nat × σ)
  advances : ∀ {i b s j s'}, i < bytes.length → body i b s = .ok (j, s') → i < j

namespace Loop

variable {ρ σ : Type} (L : Loop ρ σ)

/-- what the loop gives from an index and a state on -/
def run (i : Nat) (s : σ) : Except ρ σ :=
  if h : i < L.bytes.length then
    match hbody : L.body i L.bytes[i] s with
    | .error r => .error r
    | .ok (j, s') =>
      have : L.bytes.length - j < L.bytes.length - i := Nat.sub_lt_sub_left h (L.advances h hbody)
      run j s'
  else .ok s
termination_by L.bytes.length - i

/-- the state in which the loop passes over the byte at `p` -/
def passing (p i : Nat) (s : σ) : Option σ :=
  if h : i < L.bytes.length then
    match hbody : L.body i L.bytes[i] s with
    | .error _ => none
    | .ok (j, s') =>
      have : L.bytes.length - j < L.bytes.length - i := Nat.sub_lt_sub_left h (L.advances h hbody)
      if p < j then some s else passing p j s'
  else none
termination_by L.bytes.length - i

/-- from one index and state the loop gets to another -/
inductive Leads : Nat → σ → Nat → σ → Prop where
  | refl {i : Nat} {s : σ} : Leads i s i s
  | step {i j k : Nat} {b : UInt8} {s s' s'' : σ} : L.bytes[i]? = some b → L.body i b s = .ok (j, s') →
      Leads j s' k s'' → Leads i s k s''

variable {L} {i j k : Nat} {b : UInt8} {r : ρ} {s s' s'' : σ}

theorem run_of_le (h : L.bytes.length ≤ i) (s : σ) : L.run i s = .ok s := by
  unfold run
  exact dif_neg (Nat.not_lt_of_le h)

theorem run_error (hb : L.bytes[i]? = some b) (hbody : L.body i b s = .error r) : L.run i s = .error r := by
  obtain ⟨h, rfl⟩ := List.getElem?_eq_some_iff.1 hb
  unfold run
  rw [dif_pos h]
  split
  · rename_i h'
    rw [hbody] at h'
    cases h'
    rfl
  · rename_i h'
    rw [hbody] at h'
    cases h'

theorem run_step (hb : L.bytes[i]? = some b) (hbody : L.body i b s = .ok (j, s')) : L.run i s = L.run j s' := by
  obtain ⟨h, rfl⟩ := List.getElem?_eq_some_iff.1 hb
  conv_lhs => unfold run
  rw [dif_pos h]
  split
  · rename_i h'
    rw [hbody] at h'
    cases h'
  · rename_i h'
    rw [hbody] at h'
    cases h'
    rfl

theorem passing_step {p : Nat} (hb : L.bytes[i]? = some b) (hbody : L.body i b s = .ok (j, s')) :
    L.passing p i s = if p < j then some s else L.passing p j s' := by
  obtain ⟨h, rfl⟩ := List.getElem?_eq_some_iff.1 hb
  conv_lhs => unfold passing
  rw [dif_pos h]
  split
  · rename_i h'
    rw [hbody] at h'
    cases h'
  · rename_i h'
    rw [hbody] at h'
    cases h'
    rfl

/-- all that is skipped is passed over in the state that skips it -/
theorem passing_of_lt {p : Nat} (hb : L.bytes[i]? = some b) (hbody : L.body i b s = .ok (j, s')) (hp : p < j) :
    L.passing p i s = some s := by
  rw [passing_step hb hbody, if_pos hp]

namespace Leads

theorem one (hb : L.bytes[i]? = some b) (hbody : L.body i b s = .ok (j, s')) : L.Leads i s j s' :=
  .step hb hbody .refl

theorem trans (h : L.Leads i s j s') (h' : L.Leads j s' k s'') : L.Leads i s k s'' := by
  induction h with
  | refl => exact h'
  | step hb hbody _ ih => exact .step hb hbody (ih h')

/-- **What a loop gives is what it gives from wherever it leads to.** -/
theorem run_eq (h : L.Leads i s j s') : L.run i s = L.run j s' := by
  induction h with
  | refl => rfl
  | step hb hbody _ ih => exact (run_step hb hbody).trans ih

theorem le (h : L.Leads i s j s') : i ≤ j := by
  induction h with
  | refl => exact Nat.le_refl _
  | step hb hbody _ ih =>
    obtain ⟨hi, -⟩ := List.getElem?_eq_some_iff.1 hb
    exact Nat.le_trans (Nat.le_of_lt (L.advances hi hbody)) ih

/-- **So is the state in which it passes over a byte that has not been reached yet.** -/
theorem passing_eq {p : Nat} (h : L.Leads i s j s') (hp : j ≤ p) : L.passing p i s = L.passing p j s' := by
  induction h with
  | refl => rfl
  | step hb hbody hrest ih => rw [passing_step hb hbody, if_neg (Nat.not_lt_of_le (Nat.le_trans hrest.le hp)), ih hp]

end Leads

/-- where high bytes do nothing, a loop goes on to the next boundary -/
theorem leads_over {u v : Text} {c : Char} (hbytes : L.bytes = Text.bytes (u ++ c :: v)) (hi : byteSize u < i)
    (hi' : i ≤ byteSize (u ++ [c])) (hinert : ∀ k b, High b → L.body k b s = .ok (k + 1, s)) :
    L.Leads i s (byteSize (u ++ [c])) s := by
  obtain ⟨n, hn⟩ := Nat.exists_eq_add_of_le hi'
  induction n generalizing i with
  | zero =>
    obtain rfl : i = byteSize (u ++ [c]) := hn.symm
    exact .refl
  | succ n ih =>
    obtain ⟨b, hb, hhigh⟩ := high_behind (c := c) (v := v) hi (by omega)
    exact .step (hbytes ▸ hb) (hinert i b hhigh) (ih (by omega) (by omega) (by omega))

section
variable {u v : Text} {c : Char}

theorem head_eq (hbytes : L.bytes = Text.bytes (u ++ c :: v)) : L.bytes[byteSize u]? = some (byte c) := by
  rw [hbytes, getElem?_bytes]
  rfl

/-- **What the first byte of a character leads to is what the character leads to**, if its other bytes do nothing. -/
theorem leads_char (hbytes : L.bytes = Text.bytes (u ++ c :: v))
    (hbody : L.body (byteSize u) (byte c) s = .ok (byteSize u + 1, s'))
    (hinert : 0x80 ≤ c.toNat → ∀ k b, High b → L.body k b s' = .ok (k + 1, s')) :
    L.Leads (byteSize u) s (byteSize (u ++ [c])) s' := by
  refine .step (head_eq hbytes) hbody ?_
  by_cases hc : c.toNat < 0x80
  · have hsize : byteSize (u ++ [c]) = byteSize u + 1 := by simp [size_of_ascii hc]
    rw [hsize]
    exact .refl
  · have hpos := c.utf8Size_pos
    exact leads_over hbytes (Nat.lt_succ_self _) (by simp; omega) (hinert (Nat.le_of_not_lt hc))

/-- **Skipping two bytes at a backslash is skipping the character behind it**, if its other bytes do nothing. -/
theorem leads_escape (hbytes : L.bytes = Text.bytes (u ++ '\\' :: c :: v))
    (hbody : L.body (byteSize u) (byte '\\') s = .ok (byteSize u + 2, s'))
    (hinert : ∀ k b, High b → L.body k b s' = .ok (k + 1, s')) :
    L.Leads (byteSize u) s (byteSize (u ++ ['\\', c])) s' := by
  have hbackslash : '\\'.utf8Size = 1 := by decide
  have hpos := c.utf8Size_pos
  refine .step (head_eq hbytes) hbody ?_
  rw [List.append_cons] at hbytes
  have hover := leads_over (i := byteSize u + 2) hbytes (by simp [hbackslash]) (by simp [hbackslash]; omega) hinert
  rwa [List.append_assoc] at hover

/-- skipping two bytes at a backslash that nothing is behind leads past the end -/
theorem length_le_of_lone (hbytes : L.bytes = Text.bytes (u ++ ['\\'])) : L.bytes.length ≤ byteSize u + 2 := by
  rw [hbytes, length_bytes, byteSize_append]
  exact Nat.add_le_add_left (by decide) _

end

/-! ## Loops that look for a position -/

section
variable {L : Loop Nat σ} {r : Nat}

/-- the position that a loop is left with, or the end of the text -/
def stop (L : Loop Nat σ) (i : Nat) (s : σ) : Nat :=
  match L.run i s with
  | .error r => r
  | .ok _ => L.bytes.length

theorem stop_of_le (h : L.bytes.length ≤ i) (s : σ) : L.stop i s = L.bytes.length := by
  rw [stop, run_of_le h]

theorem stop_error (hb : L.bytes[i]? = some b) (hbody : L.body i b s = .error r) : L.stop i s = r := by
  rw [stop, run_error hb hbody]

theorem Leads.stop_eq (h : L.Leads i s j s') : L.stop i s = L.stop j s' := by
  rw [stop, h.run_eq]
  rfl

/-- where a step looks to the right only, so does the whole loop -/
theorem le_stop (hexit : ∀ {i b s r}, L.body i b s = .error r → i ≤ r) (hi : i ≤ L.bytes.length) (s : σ) :
    i ≤ L.stop i s := by
  induction hn : L.bytes.length - i using Nat.strongRecOn generalizing i s with
  | _ n ih =>
    by_cases hlt : i < L.bytes.length
    · have hb : L.bytes[i]? = some L.bytes[i] := List.getElem?_eq_getElem hlt
      cases hbody : L.body i L.bytes[i] s with
      | error r =>
        rw [stop_error hb hbody]
        exact hexit hbody
      | ok p =>
        obtain ⟨j, s'⟩ := p
        have hj := L.advances hlt hbody
        rw [(Leads.one hb hbody).stop_eq]
        by_cases hjlt : j ≤ L.bytes.length
        · exact Nat.le_trans (Nat.le_of_lt hj) (ih _ (by omega) hjlt s' rfl)
        · rw [stop_of_le (Nat.le_of_not_le hjlt)]
          exact hi
    · rw [stop_of_le (Nat.le_of_not_lt hlt)]
      exact hi

end

/-! ## Characters that are passed over -/

/-- in front of `v`, the loop passes over each character of it in a state that looks as expected -/
def Passes {α : Type} (L : Loop ρ σ) (view : σ → α) (u v : Text) (s : σ) (expected : Text → α) : Prop :=
  ∀ a c b, v = a ++ c :: b → (L.passing (byteSize (u ++ a)) (byteSize u) s).map view = some (expected a)

section
variable {α : Type} {view : σ → α} {u v w : Text} {expected expected' : Text → α}

theorem passes_nil : Passes L view u [] s expected := fun a c b h => by simp at h

/-- what one step skips is passed over in the state in front of it -/
theorem passes_step (hb : L.bytes[byteSize u]? = some b) (hbody : L.body (byteSize u) b s = .ok (j, s'))
    (hj : ∀ a c b, w = a ++ c :: b → byteSize (u ++ a) < j ∧ view s = expected a) : Passes L view u w s expected := by
  intro a c b hparts
  obtain ⟨hlt, hview⟩ := hj a c b hparts
  rw [passing_of_lt hb hbody hlt, Option.map_some, hview]

theorem size_lt_of_part {a b : Text} {c : Char} (h : w = a ++ c :: b) : byteSize (u ++ a) < byteSize (u ++ w) := by
  have hpos := c.utf8Size_pos
  simp only [h, byteSize_append, byteSize_cons]
  omega

/-- **One part more**: its characters are passed over on the way to what is behind it. -/
theorem Passes.part (h : Passes L view u w s expected) (hleads : L.Leads (byteSize u) s (byteSize (u ++ w)) s')
    (hexpected : ∀ x, x <+: v → expected (w ++ x) = expected' x) (hrest : Passes L view (u ++ w) v s' expected') :
    Passes L view u (w ++ v) s expected := by
  intro a c b hparts
  have hbehind {x y : Text} (ha : a = w ++ x) (hx : v = x ++ c :: y) :
      (L.passing (byteSize (u ++ a)) (byteSize u) s).map view = some (expected a) := by
    have hview := hrest x c y hx
    rw [List.append_assoc, ← ha] at hview
    rw [hleads.passing_eq (by rw [ha]; simp only [byteSize_append]; omega), hview, ha, hexpected x ⟨_, hx.symm⟩]
  rcases List.append_eq_append_iff.1 hparts with ⟨x, ha, hx⟩ | ⟨x, hw, hx⟩
  · exact hbehind ha hx
  · cases x with
    | nil => exact hbehind (x := []) (by simpa using hw.symm) hx.symm
    | cons d x =>
      obtain ⟨rfl, -⟩ := List.cons.inj hx
      exact h a c x hw

end

end Loop

end StyleCheck
