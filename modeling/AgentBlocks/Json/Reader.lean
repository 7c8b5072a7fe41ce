import AgentBlocks.Json.Basic
import AgentBlocks.Json.Token

/-!
Reading of JSON text. The tokens are read from the left; the arrays and objects that are still
open are kept on a stack, so the depth of nesting has no limit.
-/
namespace AgentBlocks.Json

/-- An open array with its items so far, or an open object with its members so far and the key of
the member that is being read. Both are listed last first. -/
inductive Frame where
  | array (items : List Json)
  | object (members : List (Option String × Json)) (key : Option String)

/-- What may come next, inside the open arrays and objects. -/
inductive Reading where
  | value (frames : List Frame)
  | firstItem (frames : List Frame)
  | firstKey (frames : List Frame)
  | key (members : List (Option String × Json)) (frames : List Frame)
  | colon (members : List (Option String × Json)) (key : Option String) (frames : List Frame)
  | after (value : Json) (frames : List Frame)

def startValue (frames : List Frame) : Token → Option Reading
  | .null => some (.after .null frames)
  | .bool b => some (.after (.bool b) frames)
  | .number n => some (.after (.number n) frames)
  | .string s => some (.after (.string s) frames)
  | .openArray => some (.firstItem frames)
  | .openObject => some (.firstKey frames)
  | _ => none

def readToken : Reading → Token → Option Reading
  | .value frames, token => startValue frames token
  | .firstItem frames, .closeArray => some (.after (.array []) frames)
  | .firstItem frames, token => startValue (.array [] :: frames) token
  | .firstKey frames, .closeObject => some (.after (.object []) frames)
  | .firstKey frames, .string key => some (.colon [] key frames)
  | .key members frames, .string key => some (.colon members key frames)
  | .colon members key frames, .colon => some (.value (.object members key :: frames))
  | .after v (.array items :: frames), .comma => some (.value (.array (v :: items) :: frames))
  | .after v (.array items :: frames), .closeArray =>
    some (.after (.array (v :: items).reverse) frames)
  | .after v (.object members key :: frames), .comma => some (.key ((key, v) :: members) frames)
  | .after v (.object members key :: frames), .closeObject =>
    some (.after (.object ((key, v) :: members).reverse) frames)
  | _, _ => none

/-- The value of a text that holds exactly one. -/
def parse? (s : String) : Option Json := do
  let tokens ← tokens? s.toList
  match ← tokens.foldlM readToken (.value []) with
  | .after v [] => some v
  | _ => none

end AgentBlocks.Json
