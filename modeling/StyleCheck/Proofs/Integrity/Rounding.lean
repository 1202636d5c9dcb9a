/-
Scores are percentages, rounded.

A score is computed in five rounded steps and then rounded to tenths. A rounding to 53 bits is off by at most one part in
`2 ^ 53`, so the steps together are off by a few of these, far too little to reach another tenth unless the percentage is
halfway between two of them. There the score may be the lower of the two although a half goes up: 23 of 80, which is
28.75 per cent, has the score 28.7.
- `near_nearest`, `Near.trans`, `Near.div`: how far off one rounding is, and several of them;
- `near_tenfold`, `tenths_close`: how far off the steps of a score are, and the score;
- `tenths_le`, `ofCounts_self`, `ofCounts_zero`: scores from none to all;
- `tenths_eq_or_tie`: a score is the percentage rounded to tenths, or at a tie the lower tenth;
- `ofCounts_eq_full_iff`: up to which number of names 100 per cent says that none is missing.
-/
import Mathlib.Algebra.Order.Field.Basic
import Mathlib.Data.Nat.Cast.Order.Field
import Mathlib.Tactic.FieldSimp
import Mathlib.Tactic.Linarith
import Mathlib.Tactic.NormNum
import Mathlib.Tactic.Ring
import StyleCheck.Integrity.Score

namespace StyleCheck

/-! ## Roundings -/

namespace Binary

/-- the number itself -/
def value (b : Binary) : ℚ := b.num / b.den

/-- `x` is off from `y` by at most `k` parts in `2 ^ 53` -/
def Near (k : ℕ) (x y : ℚ) : Prop := |x - y| ≤ k * (y / 2 ^ 53)

/-- a rounding is off by half a unit at most -/
theorem roundEven_bounds (num : ℕ) {den : ℕ} (hden : 0 < den) :
    2 * num ≤ 2 * (roundEven num den * den) + den ∧ 2 * (roundEven num den * den) ≤ 2 * num + den := by
  have hdiv := Nat.div_add_mod num den
  have hmod := Nat.mod_lt num hden
  rw [Nat.mul_comm] at hdiv
  unfold roundEven
  simp only
  split
  · omega
  split
  · rw [Nat.add_mul]
    omega
  · rcases Nat.mod_two_eq_zero_or_one (num / den) with h | h
    · rw [h, Nat.add_zero]
      omega
    · rw [h, Nat.add_mul]
      omega

/-- rounding to whole numbers is off by a half at most, and a half goes up -/
theorem roundUp_bounds {b : Binary} (hden : 0 < b.den) :
    (roundUp b.num b.den : ℚ) ≤ b.value + 1 / 2 ∧ b.value < roundUp b.num b.den + 1 / 2 := by
  have hden' : (0 : ℚ) < b.den := by exact_mod_cast hden
  have hlow := Nat.div_mul_le_self (2 * b.num + b.den) (2 * b.den)
  have hhigh := Nat.lt_div_mul_add (a := 2 * b.num + b.den) (b := 2 * b.den) (by omega)
  change roundUp b.num b.den * (2 * b.den) ≤ 2 * b.num + b.den at hlow
  change 2 * b.num + b.den < roundUp b.num b.den * (2 * b.den) + 2 * b.den at hhigh
  have hlow' : (roundUp b.num b.den : ℚ) * (2 * b.den) ≤ 2 * b.num + b.den := by exact_mod_cast hlow
  have hhigh' : 2 * (b.num : ℚ) + b.den < roundUp b.num b.den * (2 * b.den) + 2 * b.den := by exact_mod_cast hhigh
  unfold value
  constructor
  · rw [← sub_le_iff_le_add, le_div_iff₀ hden']
    linarith
  · rw [div_lt_iff₀ hden']
    linarith

/-- a quotient that is shifted as far as in a rounding has 53 bits or more, and the excess is what it has beyond -/
theorem scaled_le {n d : ℕ} (hn : n ≠ 0) (hd : d ≠ 0) :
    2 ^ 52 * (d * 2 ^ ((n * 2 ^ (53 + d.log2) / d).log2 - 52)) ≤ n * 2 ^ (53 + d.log2) := by
  have hbits : 2 ^ 52 ≤ n * 2 ^ (53 + d.log2) / d := by
    rw [Nat.le_div_iff_mul_le (Nat.pos_of_ne_zero hd)]
    calc 2 ^ 52 * d
        ≤ 2 ^ 52 * 2 ^ (d.log2 + 1) := Nat.mul_le_mul_left _ (Nat.lt_log2_self).le
      _ = 1 * 2 ^ (53 + d.log2) := by rw [← Nat.pow_add, Nat.one_mul, Nat.add_comm d.log2, ← Nat.add_assoc]
      _ ≤ n * 2 ^ (53 + d.log2) := Nat.mul_le_mul_right _ (Nat.pos_of_ne_zero hn)
  have hq : n * 2 ^ (53 + d.log2) / d ≠ 0 := fun h => by simp [h] at hbits
  have hlog : 52 ≤ (n * 2 ^ (53 + d.log2) / d).log2 := (Nat.le_log2 hq).2 hbits
  calc 2 ^ 52 * (d * 2 ^ ((n * 2 ^ (53 + d.log2) / d).log2 - 52))
      = 2 ^ (n * 2 ^ (53 + d.log2) / d).log2 * d := by
        rw [Nat.mul_left_comm, ← Nat.pow_add, Nat.add_sub_cancel' hlog, Nat.mul_comm]
    _ ≤ n * 2 ^ (53 + d.log2) / d * d := Nat.mul_le_mul_right _ (Nat.log2_self_le hq)
    _ ≤ n * 2 ^ (53 + d.log2) := Nat.div_mul_le_self _ _

/-- **A rounded fraction is a whole number of units**, half a unit off at most, and it has `2 ^ 52` units or more. -/
theorem exists_nearest {n d : ℕ} (hn : n ≠ 0) (hd : d ≠ 0) : ∃ r excess up : ℕ,
    nearest n d = ⟨r * 2 ^ excess, 2 ^ up⟩ ∧
    2 ^ 52 * (d * 2 ^ excess) ≤ n * 2 ^ up ∧
    2 * (n * 2 ^ up) ≤ 2 * (r * (d * 2 ^ excess)) + d * 2 ^ excess ∧
    2 * (r * (d * 2 ^ excess)) ≤ 2 * (n * 2 ^ up) + d * 2 ^ excess := by
  have hscaled := scaled_le hn hd
  have hrounded (excess : ℕ) := roundEven_bounds (n * 2 ^ (53 + d.log2))
    (Nat.mul_pos (Nat.pos_of_ne_zero hd) (Nat.two_pow_pos excess))
  refine ⟨_, _, _, ?_, hscaled, hrounded _⟩
  unfold nearest
  rw [if_neg (not_or.2 ⟨hn, hd⟩)]
  simp only [Nat.shiftLeft_eq, Nat.one_mul]

theorem den_nearest_pos (n d : ℕ) : 0 < (nearest n d).den := by
  by_cases h : n = 0 ∨ d = 0
  · unfold nearest
    rw [if_pos h]
    exact Nat.one_pos
  · obtain ⟨r, excess, up, hnearest, -⟩ := exists_nearest (not_or.1 h).1 (not_or.1 h).2
    rw [hnearest]
    exact Nat.two_pow_pos up

/-- **A rounding to 53 bits is off by one part in `2 ^ 53` at most.** -/
theorem near_nearest (n d : ℕ) : Near 1 (nearest n d).value (n / d) := by
  unfold Near value
  by_cases h : n = 0 ∨ d = 0
  · unfold nearest
    rw [if_pos h]
    rcases h with rfl | rfl <;> simp
  · obtain ⟨hn, hd⟩ := not_or.1 h
    obtain ⟨r, excess, up, hnearest, hunits, hlow, hhigh⟩ := exists_nearest hn hd
    have hd' : (0 : ℚ) < d := by positivity
    have hcommon : (0 : ℚ) < 2 ^ up * d := by positivity
    have hunits' : 2 ^ 52 * ((d : ℚ) * 2 ^ excess) ≤ n * 2 ^ up := by exact_mod_cast hunits
    have hlow' : 2 * ((n : ℚ) * 2 ^ up) ≤ 2 * (r * (d * 2 ^ excess)) + d * 2 ^ excess := by exact_mod_cast hlow
    have hhigh' : 2 * ((r : ℚ) * (d * 2 ^ excess)) ≤ 2 * (n * 2 ^ up) + d * 2 ^ excess := by exact_mod_cast hhigh
    -- both numbers over the common denominator
    have hexact : (n : ℚ) / d = n * 2 ^ up / (2 ^ up * d) := by field_simp
    have hrounded : ((r * 2 ^ excess : ℕ) : ℚ) / ((2 ^ up : ℕ) : ℚ) = r * (d * 2 ^ excess) / (2 ^ up * d) := by
      push_cast
      field_simp
    rw [hnearest, hexact, hrounded, ← sub_div, abs_div, abs_of_pos hcommon, div_le_iff₀ hcommon, Nat.cast_one, one_mul,
      div_right_comm, div_mul_cancel₀ _ hcommon.ne', abs_le]
    constructor <;> linarith

/-! ## Several roundings -/

section

variable {j k : ℕ} {x y z w : ℚ}

/-- what is rounded may have been rounded before -/
theorem Near.trans (h : Near j x y) (h' : Near k y z) (hz : 0 ≤ z) (hjk : j * k ≤ 2 ^ 53) : Near (j + k + 1) x z := by
  have hy : y ≤ z + k * (z / 2 ^ 53) := by linarith [(abs_le.1 h').2]
  have hparts : (j : ℚ) * k / 2 ^ 53 ≤ 1 := by
    rw [div_le_one (by positivity)]
    exact_mod_cast hjk
  calc |x - z|
      ≤ |x - y| + |y - z| := abs_sub_le x y z
    _ ≤ j * (y / 2 ^ 53) + k * (z / 2 ^ 53) := add_le_add h h'
    _ ≤ j * ((z + k * (z / 2 ^ 53)) / 2 ^ 53) + k * (z / 2 ^ 53) := by gcongr
    _ = (j + k + j * k / 2 ^ 53) * (z / 2 ^ 53) := by ring
    _ ≤ (j + k + 1 : ℕ) * (z / 2 ^ 53) := by
      push_cast
      gcongr

theorem Near.mul (h : Near k x y) (n : ℕ) : Near k (x * n) (y * n) := by
  calc |x * n - y * n|
      = |x - y| * n := by rw [← sub_mul, abs_mul, Nat.abs_cast]
    _ ≤ k * (y / 2 ^ 53) * n := mul_le_mul_of_nonneg_right h (Nat.cast_nonneg n)
    _ = k * (y * n / 2 ^ 53) := by ring

/-- the quotient of two rounded numbers -/
theorem Near.div (h : Near 1 x y) (h' : Near 1 z w) (hy : 0 ≤ y) (hw : 0 < w) : Near 3 (x / z) (y / w) := by
  unfold Near at h h'
  rw [Nat.cast_one, one_mul, abs_le] at h h'
  have hz : w / 2 ≤ z := by linarith
  have hpos : 0 < z * w := mul_pos (by linarith) hw
  have hxlow : (y - y / 2 ^ 53) * w ≤ x * w := mul_le_mul_of_nonneg_right (by linarith) hw.le
  have hxhigh : x * w ≤ (y + y / 2 ^ 53) * w := mul_le_mul_of_nonneg_right (by linarith) hw.le
  have hzlow : (w - w / 2 ^ 53) * y ≤ z * y := mul_le_mul_of_nonneg_right (by linarith) hy
  have hzhigh : z * y ≤ (w + w / 2 ^ 53) * y := mul_le_mul_of_nonneg_right (by linarith) hy
  have hdiff : |x * w - z * y| ≤ 2 * (y * w / 2 ^ 53) := by
    rw [abs_le]
    constructor <;> linarith
  -- the two parts are those of the exact quotient, and a third makes up for a divisor that was rounded down
  have hroom : 2 * (y * w / 2 ^ 53) ≤ 3 * (y / w / 2 ^ 53) * (z * w) := by
    have hcancel : 3 * (y / w / 2 ^ 53) * (z * w) = y * (3 * z) / 2 ^ 53 := by field_simp
    have hmost : y * (2 * w) ≤ y * (3 * z) := mul_le_mul_of_nonneg_left (by linarith) hy
    rw [hcancel]
    linarith
  unfold Near
  rw [div_sub_div _ _ (by linarith) hw.ne', abs_div, abs_of_pos hpos, div_le_iff₀ hpos]
  exact_mod_cast hdiff.trans hroom

end

theorem near_ofNat (n : ℕ) : Near 1 (ofNat n).value n := by
  have h := near_nearest n 1
  rwa [Nat.cast_one, div_one] at h

theorem near_div (a b : Binary) : Near 1 (a.div b).value (a.value / b.value) := by
  have h := near_nearest (a.num * b.den) (a.den * b.num)
  rwa [Nat.cast_mul, Nat.cast_mul, ← div_div_div_eq] at h

theorem near_times (a : Binary) (n : ℕ) : Near 1 (a.times n).value (a.value * n) := by
  have h := near_nearest (a.num * n) a.den
  rwa [Nat.cast_mul, mul_div_right_comm] at h

end Binary

/-! ## Scores -/

namespace Score

open Binary

variable {preserved total : ℕ}

/-- ten times the percentage, as computed -/
def tenfold (preserved total : ℕ) : Binary := (((Binary.ofNat preserved).div (.ofNat total)).times 100).times 10

/-- the number of tenths in a score -/
def tenths (preserved total : ℕ) : ℕ := roundUp (tenfold preserved total).num (tenfold preserved total).den

theorem ofCounts_of_ne (htotal : total ≠ 0) : ofCounts preserved total = .percent (tenths preserved total) :=
  if_neg htotal

/-- there is no score if there is nothing to compare with, and only then -/
theorem ofCounts_eq_noData_iff : ofCounts preserved total = .noData ↔ total = 0 := by
  by_cases h : total = 0
  · simp [h, ofCounts]
  · simp [h, ofCounts_of_ne]

/-- **The steps of a score are off by nine parts in `2 ^ 53` at most.** -/
theorem near_tenfold (preserved : ℕ) (htotal : total ≠ 0) :
    Near 9 (tenfold preserved total).value (preserved / total * 100 * 10) := by
  have hcounts : Near 3 ((Binary.ofNat preserved).value / (Binary.ofNat total).value) (preserved / total) :=
    (near_ofNat preserved).div (near_ofNat total) (by positivity) (by positivity)
  have hshare := (near_div (.ofNat preserved) (.ofNat total)).trans hcounts (by positivity) (by norm_num)
  have hpercent := (near_times _ 100).trans (hshare.mul 100) (by positivity) (by norm_num)
  have htenfold := (near_times _ 10).trans (hpercent.mul 10) (by positivity) (by norm_num)
  rw [Nat.cast_ofNat, Nat.cast_ofNat] at htenfold
  exact htenfold

/-- **A score is off by half a tenth at most**, and by what the steps are off. -/
theorem tenths_close (hle : preserved ≤ total) (htotal : total ≠ 0) :
    |(tenths preserved total : ℚ) - 1000 * preserved / total| ≤ 1 / 2 + 1 / 2 ^ 39 := by
  have hshare : (preserved : ℚ) / total ≤ 1 := (div_le_one (by positivity)).2 (by exact_mod_cast hle)
  obtain ⟨hlow, hhigh⟩ := roundUp_bounds (b := tenfold preserved total) (den_nearest_pos _ _)
  obtain ⟨hbelow, habove⟩ := abs_le.1 (near_tenfold preserved htotal)
  have hexact : 1000 * (preserved : ℚ) / total = preserved / total * 100 * 10 := by ring
  unfold tenths
  rw [hexact, abs_le]
  push_cast at hbelow habove
  constructor <;> linarith

theorem tenths_le (hle : preserved ≤ total) (htotal : total ≠ 0) : tenths preserved total ≤ 1000 := by
  have hpos : (0 : ℚ) < total := by positivity
  have hshare : 1000 * (preserved : ℚ) / total ≤ 1000 := by
    rw [div_le_iff₀ hpos]
    exact_mod_cast Nat.mul_le_mul_left 1000 hle
  have hclose := (abs_le.1 (tenths_close hle htotal)).2
  have hlt : (tenths preserved total : ℚ) < 1001 := by linarith
  exact Nat.lt_succ_iff.1 (by exact_mod_cast hlt)

/-- if everything is preserved the score is 100 per cent -/
theorem ofCounts_self (htotal : total ≠ 0) : ofCounts total total = .percent 1000 := by
  have hshare : 1000 * (total : ℚ) / total = 1000 := mul_div_cancel_right₀ _ (by exact_mod_cast htotal)
  have hclose := (abs_le.1 (tenths_close le_rfl htotal)).1
  rw [hshare] at hclose
  have hlt : (999 : ℚ) < tenths total total := by linarith
  have hfull : tenths total total = 1000 := Nat.le_antisymm (tenths_le le_rfl htotal) (by exact_mod_cast hlt)
  rw [ofCounts_of_ne htotal, hfull]

/-- if nothing is preserved the score is zero -/
theorem ofCounts_zero (htotal : total ≠ 0) : ofCounts 0 total = .percent 0 := by
  have hclose := (abs_le.1 (tenths_close (Nat.zero_le total) htotal)).2
  rw [Nat.cast_zero, mul_zero, zero_div, sub_zero] at hclose
  have hlt : (tenths 0 total : ℚ) < 1 := by linarith
  have hnone : tenths 0 total = 0 := Nat.lt_one_iff.1 (by exact_mod_cast hlt)
  rw [ofCounts_of_ne htotal, hnone]

/-- multiplied by the total, what the steps are off is less than one -/
theorem tenths_bounds (hle : preserved ≤ total) (htotal : total ≠ 0) (hbound : total < 2 ^ 38) :
    2 * (1000 * preserved) ≤ 2 * (tenths preserved total * total) + total ∧
    2 * (tenths preserved total * total) ≤ 2 * (1000 * preserved) + total := by
  have hpos : (0 : ℚ) < total := by positivity
  have hbound' : (total : ℚ) / 2 ^ 38 < 1 := (div_lt_one (by positivity)).2 (by exact_mod_cast hbound)
  have hcancel : 1000 * (preserved : ℚ) / total * total = 1000 * preserved := div_mul_cancel₀ _ hpos.ne'
  obtain ⟨hbelow, habove⟩ := abs_le.1 (tenths_close hle htotal)
  have hlow := mul_le_mul_of_nonneg_right hbelow hpos.le
  have hhigh := mul_le_mul_of_nonneg_right habove hpos.le
  rw [sub_mul, hcancel] at hlow hhigh
  have hlow' : 2 * (1000 * (preserved : ℚ)) < 2 * (tenths preserved total * total) + total + 1 := by linarith
  have hhigh' : 2 * (tenths preserved total * (total : ℚ)) < 2 * (1000 * preserved) + total + 1 := by linarith
  exact ⟨Nat.lt_succ_iff.1 (by exact_mod_cast hlow'), Nat.lt_succ_iff.1 (by exact_mod_cast hhigh')⟩

/-- **A score is the percentage rounded to tenths**, a half going up, or it is the lower tenth at a tie. -/
theorem tenths_eq_or_tie (hle : preserved ≤ total) (htotal : total ≠ 0) (hbound : total < 2 ^ 38) :
    tenths preserved total = roundUp (1000 * preserved) total ∨
    2 * (1000 * preserved) = 2 * (tenths preserved total * total) + total ∧
      roundUp (1000 * preserved) total = tenths preserved total + 1 := by
  obtain ⟨hlow, hhigh⟩ := tenths_bounds hle htotal hbound
  have hunits (m : ℕ) : m * (2 * total) = 2 * (m * total) := Nat.mul_left_comm m 2 total
  by_cases htie : 2 * (1000 * preserved) = 2 * (tenths preserved total * total) + total
  · refine Or.inr ⟨htie, Nat.div_eq_of_lt_le ?_ ?_⟩
    · rw [hunits, Nat.add_mul]
      omega
    · rw [hunits, Nat.add_mul, Nat.add_mul]
      omega
  · refine Or.inl (Nat.div_eq_of_lt_le ?_ ?_).symm
    · rw [hunits]
      omega
    · rw [hunits, Nat.add_mul]
      omega

/-- 28.75 per cent is halfway, and the steps end below it -/
example : ofCounts 23 80 = .percent 287 := by decide +kernel

/-- **With fewer than 2000 names, 100 per cent says that all of them are preserved**; with more it may be rounded up. -/
theorem ofCounts_eq_full_iff (hle : preserved ≤ total) (htotal : total ≠ 0) (hfew : total < 2000) :
    ofCounts preserved total = .percent 1000 ↔ preserved = total := by
  constructor
  · intro h
    rw [ofCounts_of_ne htotal] at h
    have hfull : tenths preserved total = 1000 := Score.percent.inj h
    have hbound := (tenths_bounds hle htotal (by omega)).2
    rw [hfull] at hbound
    omega
  · rintro rfl
    exact ofCounts_self htotal

example : ofCounts 1999 2000 = .percent 1000 := by decide +kernel

end Score

end StyleCheck
