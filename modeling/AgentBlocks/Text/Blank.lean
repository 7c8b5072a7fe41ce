/-!
Blank characters. A character is blank when its code point has the property `White_Space`; a
text is trimmed by removing the blank characters at both of its ends.
-/
namespace AgentBlocks.Text

/-- The code points with the property `White_Space`, as ranges with their first and last one. -/
def blankRanges : List (Nat × Nat) :=
  [(0x9, 0xD), (0x20, 0x20), (0x85, 0x85), (0xA0, 0xA0), (0x1680, 0x1680), (0x2000, 0x200A),
    (0x2028, 0x2029), (0x202F, 0x202F), (0x205F, 0x205F), (0x3000, 0x3000)]

def isBlankCode (n : Nat) : Bool := blankRanges.any fun r => r.1 ≤ n && n ≤ r.2

def isBlank (c : Char) : Bool := isBlankCode c.toNat

/-- The text without the blank characters at its two ends. -/
def trim (cs : List Char) : List Char :=
  ((cs.dropWhile isBlank).reverse.dropWhile isBlank).reverse

def allBlank (s : String) : Bool := s.toList.all isBlank

example : (blankRanges.map fun r => r.2 - r.1 + 1).sum = 25 := by decide

end AgentBlocks.Text
