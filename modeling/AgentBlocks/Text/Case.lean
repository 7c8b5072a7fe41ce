/-!
Comparison of texts without regard to the case of the letters `A` to `Z`. No other letter has a
second spelling here.
-/
namespace AgentBlocks.Text

/-- The text with each of the letters `A` to `Z` replaced by its small form. -/
def fold (s : String) : String := s.map Char.toLower

def sameName (a b : String) : Bool := fold a == fold b

theorem sameName_iff {a b : String} : sameName a b = true ↔ fold a = fold b := by
  simp [sameName]

@[simp] theorem sameName_refl (a : String) : sameName a a = true := by simp [sameName]

end AgentBlocks.Text
