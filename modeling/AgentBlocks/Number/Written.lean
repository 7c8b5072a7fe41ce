import AgentBlocks.Number.Decimal

/-!
Numbers as people write them into text fields: digits with an optional sign, point and exponent,
or one of the words for an infinity or for no number. The result is the nearest value.
-/
namespace AgentBlocks.Written

/-- A magnitude in digits: the coefficient is `digits` and the exponent counts tens. -/
structure Scaled where
  digits : List Char
  exponent : Int

/-- The nearest value. Where the place of the first digit alone decides, no power is computed. -/
def Scaled.value (negative : Bool) (s : Scaled) : Binary64 :=
  let digits := s.digits.dropWhile (· == '0')
  let place : Int := digits.length + s.exponent
  if digits.isEmpty then .zero negative
  else if 400 < place then .infinity negative
  else if place < -400 then .zero negative
  else
    let (num, den) := (Decimal.mk (digitsValue digits) s.exponent).ratio
    .ofRatio negative num den

def takeSign : List Char → Bool × List Char
  | '+' :: rest => (false, rest)
  | '-' :: rest => (true, rest)
  | rest => (false, rest)

/-- The exponent that ends a written number: nothing, or a letter, an optional sign and digits. -/
def exponentPart : List Char → Option Int
  | [] => some 0
  | c :: rest =>
    if c = 'e' ∨ c = 'E' then
      let (negative, digits) := takeSign rest
      if digits.isEmpty || !digits.all isDigit then none
      else some (if negative then -digitsValue digits else digitsValue digits)
    else none

/-- Digits with an optional point, at least one digit in all, and an optional exponent. -/
def scaled? (cs : List Char) : Option Scaled :=
  let whole := cs.takeWhile isDigit
  let rest := cs.dropWhile isDigit
  let (fraction, rest) := match rest with
    | '.' :: rest => (rest.takeWhile isDigit, rest.dropWhile isDigit)
    | rest => ([], rest)
  if whole.isEmpty && fraction.isEmpty then none
  else (exponentPart rest).map fun e => ⟨whole ++ fraction, e - fraction.length⟩

def number? (cs : List Char) : Option Binary64 :=
  let (negative, rest) := takeSign cs
  let word := rest.map Char.toLower
  if word = "inf".toList ∨ word = "infinity".toList then some (.infinity negative)
  else if word = "nan".toList then some .nan
  else (scaled? rest).map (·.value negative)

end AgentBlocks.Written
