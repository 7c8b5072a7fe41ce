import AgentBlocks.Json.Numeral

/-!
Tokens of JSON text. The characters are read one by one from the left; the state says which token
is being read.
-/
namespace AgentBlocks.Json

/-- A token. A string whose escapes form no text has no content. -/
inductive Token where
  | openArray
  | closeArray
  | openObject
  | closeObject
  | comma
  | colon
  | null
  | bool (value : Bool)
  | number (value : Numeral)
  | string (content : Option String)

/-- The content of a string that is being read, last character first. A first half of a surrogate
pair waits for the second one; the characters are lost when one of them lacks its partner. -/
structure Unfinished where
  chars : Option (List Char)
  waiting : Option Nat

namespace Unfinished

def start : Unfinished := ⟨some [], none⟩

/-- One more character that is not an escaped half of a pair. -/
def push (u : Unfinished) (c : Char) : Unfinished :=
  match u.waiting with
  | none => { u with chars := u.chars.map (c :: ·) }
  | some _ => ⟨none, none⟩

/-- One more unit of 16 bits. -/
def pushUnit (u : Unfinished) (n : Nat) : Unfinished :=
  let isFirst := 0xD800 ≤ n && n < 0xDC00
  let isSecond := 0xDC00 ≤ n && n < 0xE000
  match u.waiting with
  | none =>
    if isFirst then { u with waiting := some n }
    else if isSecond then ⟨none, none⟩
    else u.push (Char.ofNat n)
  | some first =>
    if isSecond then
      ⟨u.chars.map (Char.ofNat (0x10000 + (first - 0xD800) * 0x400 + (n - 0xDC00)) :: ·), none⟩
    else ⟨none, none⟩

def content (u : Unfinished) : Option String :=
  match u.waiting with
  | none => u.chars.map fun cs => String.ofList cs.reverse
  | some _ => none

end Unfinished

inductive Lexing where
  | between
  | string (u : Unfinished)
  | escape (u : Unfinished)
  | unit (u : Unfinished) (remaining : Nat) (value : Nat)
  | number (reversed : List Char)
  | word (reversed : List Char)

/-- The character that a backslash and a letter stand for. -/
def escaped? : Char → Option Char
  | '"' => some '"'
  | '\\' => some '\\'
  | '/' => some '/'
  | 'b' => some '\x08'
  | 'f' => some '\x0C'
  | 'n' => some '\n'
  | 'r' => some '\r'
  | 't' => some '\t'
  | _ => none

def hexValue? (c : Char) : Option Nat :=
  if isDigit c then some (digitValue c)
  else if 'a' ≤ c ∧ c ≤ 'f' then some (c.toNat - 'a'.toNat + 10)
  else if 'A' ≤ c ∧ c ≤ 'F' then some (c.toNat - 'A'.toNat + 10)
  else none

def inNumeral (c : Char) : Bool :=
  isDigit c || c == '-' || c == '+' || c == '.' || c == 'e' || c == 'E'

def wordToken? (reversed : List Char) : Option Token :=
  let word := String.ofList reversed.reverse
  if word = "null" then some .null
  else if word = "true" then some (.bool true)
  else if word = "false" then some (.bool false)
  else none

def startToken (tokens : List Token) (c : Char) : Option (Lexing × List Token) :=
  match c with
  | ' ' | '\t' | '\n' | '\r' => some (.between, tokens)
  | '[' => some (.between, .openArray :: tokens)
  | ']' => some (.between, .closeArray :: tokens)
  | '\x7b' => some (.between, .openObject :: tokens)
  | '\x7d' => some (.between, .closeObject :: tokens)
  | ',' => some (.between, .comma :: tokens)
  | ':' => some (.between, .colon :: tokens)
  | '"' => some (.string .start, tokens)
  | c =>
    if c = '-' ∨ isDigit c then some (.number [c], tokens)
    else if c.isLower then some (.word [c], tokens)
    else none

/-- Reads one character. The tokens before it are listed last first. -/
def lexChar : Lexing × List Token → Char → Option (Lexing × List Token)
  | (.between, tokens), c => startToken tokens c
  | (.string u, tokens), c =>
    if c = '"' then some (.between, .string u.content :: tokens)
    else if c = '\\' then some (.escape u, tokens)
    else if c.toNat < 0x20 then none
    else some (.string (u.push c), tokens)
  | (.escape u, tokens), c =>
    if c = 'u' then some (.unit u 4 0, tokens)
    else (escaped? c).map fun e => (.string (u.push e), tokens)
  | (.unit u remaining value, tokens), c =>
    (hexValue? c).map fun digit =>
      let value := 16 * value + digit
      if remaining ≤ 1 then (.string (u.pushUnit value), tokens)
      else (.unit u (remaining - 1) value, tokens)
  | (.number reversed, tokens), c =>
    if inNumeral c then some (.number (c :: reversed), tokens)
    else (Numeral.ofChars? reversed.reverse).bind fun n => startToken (.number n :: tokens) c
  | (.word reversed, tokens), c =>
    if c.isLower then some (.word (c :: reversed), tokens)
    else (wordToken? reversed).bind fun token => startToken (token :: tokens) c

/-- The tokens of a text that ends here. -/
def lexEnd : Lexing × List Token → Option (List Token)
  | (.between, tokens) => some tokens.reverse
  | (.number reversed, tokens) =>
    (Numeral.ofChars? reversed.reverse).map fun n => (Token.number n :: tokens).reverse
  | (.word reversed, tokens) => (wordToken? reversed).map fun token => (token :: tokens).reverse
  | _ => none

def tokens? (cs : List Char) : Option (List Token) :=
  (cs.foldlM lexChar (.between, [])).bind lexEnd

end AgentBlocks.Json
