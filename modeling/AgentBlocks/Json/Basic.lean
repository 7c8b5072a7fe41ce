import AgentBlocks.Json.Numeral

/-!
JSON values as they stand in a text. Members of an object keep their order and may repeat a key.
A string whose escapes form no text, because a surrogate lacks its partner, has no content.
-/
namespace AgentBlocks

inductive Json where
  | null
  | bool (value : Bool)
  | number (value : Numeral)
  | string (content : Option String)
  | array (items : List Json)
  | object (members : List (Option String × Json))

namespace Json

def text (s : String) : Json := .string (some s)

def record (members : List (String × Json)) : Json :=
  .object (members.map fun m => (some m.1, m.2))

def text? : Json → Option String
  | .string content => content
  | _ => none

def bool? : Json → Option Bool
  | .bool value => some value
  | _ => none

/-- The integer that a number denotes when it is written as one. -/
def integer? : Json → Option Int
  | .number n => n.integer?
  | _ => none

def items? : Json → Option (List Json)
  | .array items => some items
  | _ => none

/-- The members of an object whose keys are all texts. -/
def members? : Json → Option (List (String × Json))
  | .object members => members.mapM fun m => m.1.map fun key => (key, m.2)
  | _ => none

/-- The value of an object's first member with the given key. -/
def get? (key : String) : Json → Option Json
  | .object members => (members.find? fun m => m.1 == some key).map (·.2)
  | _ => none

end Json

end AgentBlocks
