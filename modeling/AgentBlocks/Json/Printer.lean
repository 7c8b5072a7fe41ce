import AgentBlocks.Json.Basic

/-!
Writing of JSON text. Each item and each member stands on a line of its own, two blanks further
to the right than what encloses it; an empty array or object is written in two characters.
-/
namespace AgentBlocks.Json

def hexDigit (n : Nat) : Char := if n < 10 then Char.ofNat (48 + n) else Char.ofNat (87 + n)

/-- A character inside a string. Quotes, backslashes and the characters below the blank are
escaped, no others. -/
def escape (c : Char) : List Char :=
  match c with
  | '"' => ['\\', '"']
  | '\\' => ['\\', '\\']
  | '\x08' => ['\\', 'b']
  | '\x0C' => ['\\', 'f']
  | '\n' => ['\\', 'n']
  | '\r' => ['\\', 'r']
  | '\t' => ['\\', 't']
  | c =>
    if c.toNat < 0x20 then ['\\', 'u', '0', '0', hexDigit (c.toNat / 16), hexDigit (c.toNat % 16)]
    else [c]

/-- A string. One without content is written as a surrogate without its partner. -/
def quoted : Option String → List Char
  | some s => '"' :: s.toList.flatMap escape ++ ['"']
  | none => '"' :: "\\ud800".toList ++ ['"']

/-- The end of a line and the indentation of the next one. -/
def newLine (depth : Nat) : List Char := '\n' :: List.replicate (2 * depth) ' '

mutual

/-- A value inside the given number of arrays and objects. -/
def chars (depth : Nat) : Json → List Char
  | .null => "null".toList
  | .bool b => (if b then "true" else "false").toList
  | .number n => n.text
  | .string s => quoted s
  | .array [] => ['[', ']']
  | .array (v :: vs) =>
    '[' :: newLine (depth + 1) ++ chars (depth + 1) v ++ itemChars (depth + 1) vs ++
      newLine depth ++ [']']
  | .object [] => ['\x7b', '\x7d']
  | .object ((key, v) :: members) =>
    '\x7b' :: newLine (depth + 1) ++ quoted key ++ [':', ' '] ++ chars (depth + 1) v ++
      memberChars (depth + 1) members ++ newLine depth ++ ['\x7d']

def itemChars (depth : Nat) : List Json → List Char
  | [] => []
  | v :: vs => ',' :: newLine depth ++ chars depth v ++ itemChars depth vs

def memberChars (depth : Nat) : List (Option String × Json) → List Char
  | [] => []
  | (key, v) :: members =>
    ',' :: newLine depth ++ quoted key ++ [':', ' '] ++ chars depth v ++ memberChars depth members

end

def pretty (v : Json) : String := String.ofList (chars 0 v)

end AgentBlocks.Json
