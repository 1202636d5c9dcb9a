/-
Scores in per cent.

A score is computed in double precision: both counts, their quotient, the percentage and its tenfold are each rounded
to the nearest number of 53 significant bits, a tie going to the even one. The tenfold is then rounded to a whole
number of tenths, a half going up, and the score is that number of tenths, rounded once more. `Binary` holds the numbers
as exact fractions, so nothing here is left to the machine.
-/
namespace StyleCheck

/-- a fraction of natural numbers that is a number of at most 53 significant bits -/
structure Binary where
  num : Nat
  den : Nat
  deriving DecidableEq, Repr

namespace Binary

/-- `num / den` to the nearest whole number, a tie going to the even one -/
def roundEven (num den : Nat) : Nat :=
  let q := num / den
  let r := num % den
  if 2 * r < den then q
  else if den < 2 * r then q + 1
  else q + q % 2

/-- `num / den` to the nearest whole number, a tie going up -/
def roundUp (num den : Nat) : Nat := (2 * num + den) / (2 * den)

/-- `num / den` to the nearest number of 53 significant bits -/
def nearest (num den : Nat) : Binary :=
  if num = 0 ∨ den = 0 then ⟨0, 1⟩
  else
    let up := 53 + den.log2
    -- the quotient of the shifted numerator has at least 53 bits; those beyond are rounded away
    let excess := (num <<< up / den).log2 - 52
    ⟨roundEven (num <<< up) (den <<< excess) <<< excess, 1 <<< up⟩

def ofNat (n : Nat) : Binary := nearest n 1

def div (a b : Binary) : Binary := nearest (a.num * b.den) (a.den * b.num)

/-- multiply by a whole number -/
def times (a : Binary) (n : Nat) : Binary := nearest (a.num * n) a.den

end Binary

/-- a percentage, or the lack of one -/
inductive Score where
  /-- a whole number of tenths of a per cent -/
  | percent (tenths : Nat)
  /-- nothing to compare with -/
  | noData
  deriving DecidableEq, Repr

/-- how good a score is -/
inductive Grade where
  | excellent
  | good
  | fair
  | poor
  | noData
  deriving DecidableEq, Repr

def Grade.name : Grade → String
  | excellent => "excellent"
  | good => "good"
  | fair => "fair"
  | poor => "poor"
  | noData => "no data"

namespace Score

/-- the share of `preserved` in `total`, as computed -/
def ofCounts (preserved total : Nat) : Score :=
  if total = 0 then .noData
  else
    let tenfold := (((Binary.ofNat preserved).div (.ofNat total)).times 100).times 10
    .percent (Binary.roundUp tenfold.num tenfold.den)

/-- 95, 85 and 70 per cent are the least excellent, good and fair scores -/
def grade : Score → Grade
  | noData => .noData
  | percent tenths =>
    if 950 ≤ tenths then .excellent
    else if 850 ≤ tenths then .good
    else if 700 ≤ tenths then .fair
    else .poor

/-- a number of tenths with one decimal place, as the nearest number of 53 bits has it -/
def decimal (tenths : Nat) : String :=
  let value := Binary.nearest tenths 10
  let shown := Binary.roundEven (value.num * 10) value.den
  s!"{shown / 10}.{shown % 10}"

def describe : Score → String
  | percent tenths => s!"{decimal tenths}%"
  | noData => "n/a"

end Score

end StyleCheck
