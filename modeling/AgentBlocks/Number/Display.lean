import AgentBlocks.Number.Decimal

/-!
Numbers as they stand in program text: the shortest digits that read back, never with an
exponent, and both zeros as `0`.
-/
namespace AgentBlocks.Binary64

/-- The magnitude of a finite value in program text. -/
def magnitudeText (v : Binary64) : List Char :=
  if v.isZero then ['0'] else
    let (digits, point) := (v.shortest .up).positional
    match pointed digits point with
    | (whole, []) => whole
    | (whole, fraction) => whole ++ '.' :: fraction

/-- The number in program text. A zero has no sign. -/
def display (v : Binary64) : String :=
  if v.isNaN then "NaN"
  else if v.isInfinite then (if v.negative then "-inf" else "inf")
  else String.ofList
    (if v.negative && !v.isZero then '-' :: v.magnitudeText else v.magnitudeText)

end AgentBlocks.Binary64
