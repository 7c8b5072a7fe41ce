/-!
Floating point numbers of 64 bits. A value is a sign and the rank of its magnitude: rank 0 is
zero, the next rank is the next larger magnitude, and infinity stands above all finite ranks.
Exact ratios are rounded to the nearest value, and a tie goes to the even rank.
-/
namespace AgentBlocks

def twoPow (n : Nat) : Nat := Nat.pow 2 n

def tenPow (n : Nat) : Nat := Nat.pow 10 n

/-- A floating point number of 64 bits. -/
structure Binary64 where
  negative : Bool
  rank : Nat
  rank_lt : rank < twoPow 63
deriving DecidableEq

namespace Binary64

/-- The rank of infinity; the ranks above it are no numbers. -/
def infinityRank : Nat := 2047 * twoPow 52

theorem infinityRank_lt : infinityRank < twoPow 63 := by decide +kernel

def zero (negative : Bool) : Binary64 := ⟨negative, 0, by decide⟩

def infinity (negative : Bool) : Binary64 := ⟨negative, infinityRank, infinityRank_lt⟩

def nan : Binary64 := ⟨false, infinityRank + twoPow 51, by decide⟩

instance : Inhabited Binary64 := ⟨zero false⟩

def isFinite (v : Binary64) : Bool := v.rank < infinityRank

def isInfinite (v : Binary64) : Bool := v.rank == infinityRank

def isNaN (v : Binary64) : Bool := infinityRank < v.rank

def isZero (v : Binary64) : Bool := v.rank == 0

/-- The integer factor of a finite magnitude. -/
def significand (v : Binary64) : Nat :=
  if v.rank < twoPow 52 then v.rank else twoPow 52 + v.rank % twoPow 52

/-- The power of two of a finite magnitude: the magnitude is `significand * 2 ^ exponent`. -/
def exponent (v : Binary64) : Int :=
  if v.rank < twoPow 52 then -1074 else (v.rank / twoPow 52 : Nat) - 1075

def neg (v : Binary64) : Binary64 := { v with negative := !v.negative }

/-- The quotient rounded to the nearest integer; a tie goes to the even one. -/
def divToEven (num den : Nat) : Nat :=
  let quotient := num / den
  let twice := 2 * (num % den)
  if twice < den then quotient
  else if den < twice then quotient + 1
  else quotient + quotient % 2

/-- The ratio `num / den * 2 ^ shift` as a ratio of integers. -/
def scale (num den : Nat) (shift : Int) : Nat × Nat :=
  (num * twoPow shift.toNat, den * twoPow (-shift).toNat)

/-- The power of two at which a ratio is rounded: its quotient has 53 binary digits there,
or fewer when the power is the least one. -/
def roundingExponent (num den : Nat) : Int :=
  let q : Int := (num.log2 : Int) - den.log2 - 53
  let (n, d) := scale num den (-q)
  max (-1074) (if n / d < twoPow 53 then q else q + 1)

/-- The rank nearest to a ratio, at most that of infinity. -/
def nearestRank (num den : Nat) : Nat :=
  if num = 0 then 0 else
    let q := roundingExponent num den
    let (n, d) := scale num den (-q)
    min ((q + 1074).toNat * twoPow 52 + divToEven n d) infinityRank

/-- The value nearest to the ratio `num / den` with the given sign. -/
def ofRatio (negative : Bool) (num den : Nat) : Binary64 :=
  ⟨negative, nearestRank num den, by
    have := infinityRank_lt
    unfold nearestRank
    split
    · omega
    · exact Nat.lt_of_le_of_lt (Nat.min_le_right _ _) infinityRank_lt⟩

def ofNat (n : Nat) : Binary64 := ofRatio false n 1

def mul (a b : Binary64) : Binary64 :=
  let (num, den) := scale (a.significand * b.significand) 1 (a.exponent + b.exponent)
  ofRatio (a.negative != b.negative) num den

/-- The quotient of two finite values, rounded. The divisor is not zero. -/
def div (a b : Binary64) : Binary64 :=
  let (num, den) := scale a.significand b.significand (a.exponent - b.exponent)
  ofRatio (a.negative != b.negative) num den

example : ofRatio false 1 10 = ⟨false, 0x3FB999999999999A, by decide⟩ := by decide +kernel

example : (ofNat (twoPow 1024)).isInfinite = true := by decide +kernel

end Binary64

end AgentBlocks
