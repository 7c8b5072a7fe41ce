import AgentBlocks.Number.Binary64

/-!
Decimal digits and the shortest decimal that reads back as a given number. A decimal reads back
as a value when it lies in the interval of reals that round to that value. Of the decimals with
the least number of digits the one nearest to the value is taken.
-/
namespace AgentBlocks

def isDigit (c : Char) : Bool := '0' ≤ c && c ≤ '9'

def digitValue (c : Char) : Nat := c.toNat - '0'.toNat

/-- The number that digits denote, the first digit weighing most. -/
def digitsValue (digits : List Char) : Nat :=
  digits.foldl (fun n c => 10 * n + digitValue c) 0

/-- The digits of a natural number; zero has one digit. -/
def digitsOf (n : Nat) : List Char := Nat.toDigits 10 n

structure Decimal where
  coefficient : Nat
  exponent : Int
deriving DecidableEq

namespace Decimal

/-- Which of two equally near decimals is taken. -/
inductive Tie where
  | up
  | toEven
deriving DecidableEq

def ratio (d : Decimal) : Nat × Nat :=
  (d.coefficient * tenPow d.exponent.toNat, tenPow (-d.exponent).toNat)

/-- The place of the first digit of a positive ratio: it is below `10 ^ place` and not below
`10 ^ (place - 1)`. -/
def place (num den : Nat) : Int :=
  if den ≤ num then (digitsOf (num / den)).length
  else 1 - (digitsOf ((den - 1) / num)).length

def compareRatio (d : Decimal) (num den : Nat) : Ordering :=
  let (n, m) := d.ratio
  compare (n * den) (num * m)

end Decimal

namespace Binary64

/-- The magnitude as a ratio, in quarters of the unit of its last binary digit: the value is
`quarters * num / den` with four quarters to the unit. -/
def quarter (v : Binary64) : Nat × Nat := scale 1 1 (v.exponent - 2)

/-- The interval of reals that round to the magnitude, in quarters. Below a power of two the
values lie twice as dense. -/
def lowerQuarters (v : Binary64) : Nat :=
  if v.significand = twoPow 52 ∧ -1074 < v.exponent then 4 * v.significand - 1
  else 4 * v.significand - 2

def upperQuarters (v : Binary64) : Nat := 4 * v.significand + 2

/-- Whether a decimal rounds to the magnitude. The ends of the interval do when the last binary
digit is even. -/
def readsBack (v : Binary64) (d : Decimal) : Bool :=
  let (num, den) := v.quarter
  let low := d.compareRatio (v.lowerQuarters * num) den
  let high := d.compareRatio (v.upperQuarters * num) den
  if v.significand % 2 = 0 then low != .lt && high != .gt else low == .gt && high == .lt

/-- The nearest decimal with a given number of digits that reads back, if one does. -/
def decimalWith? (v : Binary64) (tie : Decimal.Tie) (digits : Nat) : Option Decimal :=
  let (unit, den) := v.quarter
  let num := 4 * v.significand * unit
  let exponent := Decimal.place num den - digits
  let floor := num * tenPow (-exponent).toNat / (den * tenPow exponent.toNat)
  let below : Decimal := ⟨floor, exponent⟩
  let above : Decimal := ⟨floor + 1, exponent⟩
  match v.readsBack below, v.readsBack above with
  | false, false => none
  | true, false => some below
  | false, true => some above
  | true, true =>
    let half : Decimal := ⟨2 * floor + 1, exponent⟩
    match half.compareRatio (2 * num) den with
    | .gt => some below
    | .lt => some above
    | .eq => some (if tie = .toEven ∧ floor % 2 = 0 then below else above)

/-- The shortest decimal that reads back as a finite magnitude other than zero. Seventeen digits
always suffice. -/
def shortest (v : Binary64) (tie : Decimal.Tie) : Decimal :=
  ((List.range 17).findSome? fun n => v.decimalWith? tie (n + 1)).getD ⟨0, 0⟩

end Binary64

def stripZeros (digits : List Char) : List Char :=
  (digits.reverse.dropWhile (· == '0')).reverse

/-- A positive decimal as digits with no zero at the end and the place of the point: it is
`0.digits * 10 ^ point`. -/
def Decimal.positional (d : Decimal) : List Char × Int :=
  let digits := digitsOf d.coefficient
  (stripZeros digits, digits.length + d.exponent)

/-- Digits written without an exponent, as the part before and the part after the point. -/
def pointed (digits : List Char) (point : Int) : List Char × List Char :=
  if point ≤ 0 then (['0'], List.replicate (-point).toNat '0' ++ digits)
  else
    let before := point.toNat
    (digits.take before ++ List.replicate (before - digits.length) '0', digits.drop before)

end AgentBlocks
