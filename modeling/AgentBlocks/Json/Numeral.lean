import AgentBlocks.Number.Decimal

/-!
Numerals of JSON text: an optional minus, digits, and optionally a point with digits and an
exponent. The text of a numeral is kept digit by digit, so that an integer can be told from a
number that only has an integral value.
-/
namespace AgentBlocks

/-- A numeral. The fraction is empty when there is no point; the exponent carries its sign. -/
structure Numeral where
  negative : Bool
  whole : List Char
  fraction : List Char
  exponent : Option (Bool × List Char)
deriving DecidableEq

namespace Numeral

/-- The numeral as text. An exponent that is not negative is written with a plus. -/
def text (n : Numeral) : List Char :=
  (if n.negative then ['-'] else []) ++ n.whole ++
    (if n.fraction.isEmpty then [] else '.' :: n.fraction) ++
    match n.exponent with
    | none => []
    | some (negative, digits) => 'e' :: (if negative then '-' else '+') :: digits

/-- The digits before the point: a zero stands only alone. -/
def isWhole : List Char → Bool
  | [] => false
  | ['0'] => true
  | '0' :: _ => false
  | _ => true

/-- The exponent that ends a numeral, if the characters form one. -/
def exponent? : List Char → Option (Option (Bool × List Char))
  | [] => some none
  | c :: rest =>
    if c = 'e' ∨ c = 'E' then
      let (negative, digits) := match rest with
        | '-' :: digits => (true, digits)
        | '+' :: digits => (false, digits)
        | digits => (false, digits)
      if !digits.isEmpty && digits.all isDigit then some (some (negative, digits)) else none
    else none

/-- The numeral that the characters form, if they form one. -/
def ofChars? (cs : List Char) : Option Numeral :=
  let (negative, cs) := match cs with
    | '-' :: rest => (true, rest)
    | rest => (false, rest)
  let whole := cs.takeWhile isDigit
  if !isWhole whole then none else
    match cs.dropWhile isDigit with
    | '.' :: rest =>
      let fraction := rest.takeWhile isDigit
      if fraction.isEmpty then none
      else (exponent? (rest.dropWhile isDigit)).map fun e => ⟨negative, whole, fraction, e⟩
    | rest => (exponent? rest).map fun e => ⟨negative, whole, [], e⟩

/-- The integer that a numeral without point and exponent denotes. The numeral `-0` denotes
none. -/
def integer? (n : Numeral) : Option Int :=
  if !n.fraction.isEmpty || n.exponent.isSome then none
  else
    let magnitude := digitsValue n.whole
    if n.negative then (if magnitude = 0 then none else some (-(magnitude : Int)))
    else some magnitude

def ofInt (n : Int) : Numeral := ⟨n < 0, digitsOf n.natAbs, [], none⟩

/-- The largest coefficient that is read exactly. -/
def coefficientLimit : Nat := twoPow 64 - 1

/-- Appends digits to a coefficient until the next one would exceed the limit. The result is the
coefficient and the number of digits left over. -/
def absorb (coefficient : Nat) : List Char → Nat × Nat
  | [] => (coefficient, 0)
  | c :: rest =>
    let next := 10 * coefficient + digitValue c
    if next ≤ coefficientLimit then absorb next rest else (coefficient, rest.length + 1)

def tenPower (n : Nat) : Binary64 := .ofNat (tenPow n)

/-- The value `coefficient * 10 ^ exponent` in two roundings, first of the coefficient and then of
its product with, or quotient by, a power of ten; one more rounding where that power is out of
range. A value beyond the largest finite one is refused. -/
def scaled? (coefficient : Nat) (exponent : Int) : Option Binary64 :=
  let start := Binary64.ofNat coefficient
  if start.isZero then some start
  else if 308 < exponent then none
  else if 0 ≤ exponent then
    let product := start.mul (tenPower exponent.toNat)
    if product.isInfinite then none else some product
  else if -308 ≤ exponent then some (start.div (tenPower (-exponent).toNat))
  else if -616 ≤ exponent then
    some ((start.div (tenPower 308)).div (tenPower (-exponent - 308).toNat))
  else some (.zero false)

/-- The number that a numeral denotes. Digits beyond the largest coefficient count as zeros before
the point and are dropped after it; a number out of range is refused. -/
def binary64? (n : Numeral) : Option Binary64 :=
  let (coefficient, beyond) := absorb 0 n.whole
  let (coefficient, dropped) := absorb coefficient n.fraction
  let power : Int := match n.exponent with
    | none => 0
    | some (negative, digits) => if negative then -digitsValue digits else digitsValue digits
  (scaled? coefficient (beyond - (n.fraction.length - dropped : Nat) + power)).map fun v =>
    if n.negative then v.neg else v

/-- The numeral of a finite number: the shortest digits that read back, with at least one digit
after the point from `0.00001` up to below `10 ^ 16`, and with an exponent elsewhere. -/
def ofBinary64 (v : Binary64) : Numeral :=
  if v.isZero then ⟨v.negative, ['0'], ['0'], none⟩
  else
    let (digits, point) := (v.shortest .toEven).positional
    if -5 < point ∧ point ≤ 16 then
      let (whole, fraction) := pointed digits point
      ⟨v.negative, whole, if fraction.isEmpty then ['0'] else fraction, none⟩
    else
      ⟨v.negative, digits.take 1, digits.drop 1, some (point ≤ 0, digitsOf (point - 1).natAbs)⟩

end Numeral

end AgentBlocks
