import AgentBlocks.Text.Blank
import AgentBlocks.Text.Case
import AgentBlocks.Number.Display
import AgentBlocks.Number.Written

/-!
Literals that an author fixes in the fields of a block. A text counts as a number or as a truth
value when it spells one.
-/
namespace AgentBlocks

inductive FieldValue where
  | bool (value : Bool)
  | number (value : Binary64)
  | text (value : String)
deriving DecidableEq

namespace FieldValue

def display : FieldValue → String
  | .bool true => "true"
  | .bool false => "false"
  | .number v => v.display
  | .text s => s

def text? : FieldValue → Option String
  | .text s => some s
  | _ => none

/-- The number that a literal is or spells, blanks at both ends apart. -/
def number? : FieldValue → Option Binary64
  | .number v => some v
  | .text s => Written.number? (Text.trim s.toList)
  | .bool _ => none

/-- The truth value that a literal is or spells, in any case. -/
def bool? : FieldValue → Option Bool
  | .bool b => some b
  | .text s =>
    if Text.sameName s "true" then some true
    else if Text.sameName s "false" then some false
    else none
  | .number _ => none

end FieldValue

end AgentBlocks
