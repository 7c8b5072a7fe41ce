import AgentBlocks.Text.Case

/-!
Names that a model may give to its breeds and variables: letters, digits, hyphens and underscores,
with no digit in front. The words of the modelling language are reserved in every case.
-/
namespace AgentBlocks

def isNameLetter (c : Char) : Bool := ('A' ≤ c && c ≤ 'Z') || ('a' ≤ c && c ≤ 'z')

/-- A character that a name may start with. -/
def isNameStart (c : Char) : Bool := isNameLetter c || c == '_' || c == '-'

/-- A character that a name may go on with. -/
def isNamePart (c : Char) : Bool := isNameStart c || ('0' ≤ c && c ≤ '9')

/-- The form of a name. -/
def isValidNameChars : List Char → Bool
  | [] => false
  | c :: rest => isNameStart c && rest.all isNamePart

def isValidName (s : String) : Bool := isValidNameChars s.toList

/-- The words of the modelling language. -/
def reservedWords : List String :=
  ["and", "any?", "ask", "back", "bk", "breed", "ca", "clear-all", "color", "create-turtles",
    "crt", "die", "directed-link-breed", "end", "extensions", "false", "fd", "foreach",
    "forward", "globals", "hatch", "heading", "hidden?", "if", "ifelse", "ifelse-value", "label",
    "left", "let", "links-own", "lt", "mod", "myself", "nobody", "not", "of", "one-of", "or",
    "other", "patches-own", "pcolor", "print", "pxcor", "pycor", "random", "repeat", "report",
    "reset-ticks", "right", "rt", "self", "set", "setxy", "show", "shape", "size", "sprout",
    "stop", "tick", "ticks", "to", "to-report", "true", "turtles-own", "undirected-link-breed",
    "while", "who", "with", "xcor", "xor", "ycor"]

def isReservedWord (s : String) : Bool := reservedWords.contains (Text.fold s)

end AgentBlocks
