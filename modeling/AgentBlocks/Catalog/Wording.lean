import AgentBlocks.Catalog.Design
import AgentBlocks.Text.Blank

/-!
Wording that block types share: texts taken from the fields of a block, names in the spelling of
the registries, and the templates of operators, calls and commands.
-/
namespace AgentBlocks

namespace Block

/-- The text of a field, or another text when the field is absent or blank. -/
def fieldOr (b : Block) (name fallback : String) : String :=
  match b.fieldText? name with
  | some s => if Text.allBlank s then fallback else s
  | none => fallback

/-- The name in a field without blanks at its ends, or another text when it has not the form of a
name. -/
def nameOr (b : Block) (name fallback : String) : String :=
  match b.fieldText? name with
  | some s =>
    let trimmed := Text.trim s.toList
    if isValidNameChars trimmed then String.ofList trimmed else fallback
  | none => fallback

end Block

namespace Registries

/-- The plural of the breed that answers to a name; a name without a breed stands for itself. -/
def pluralOf (r : Registries) (name : String) : String :=
  match r.findBreed? name with
  | some b => b.plural
  | none => name

def singularOf (r : Registries) (name : String) : String :=
  match r.findBreed? name with
  | some b => b.singular
  | none => name

/-- A variable as it was declared. -/
def spellingOf (r : Registries) (name : String) : String :=
  match r.findVariable? name with
  | some v => v.name
  | none => name

end Registries

namespace Template

def word (s : String) : Template := expression .atomic [.text s]

/-- Two operands around an operator. Operators group to the left, so the right operand keeps its
parentheses at equal class. -/
def infixed (symbol : String) (precedence : Precedence) : Template :=
  expression precedence
    [.value "A" (.upTo precedence), .text (" " ++ symbol ++ " "), .value "B" (.below precedence)]

/-- A name before its arguments, each in parentheses unless it is atomic. -/
def call (name : String) (slots : List String) : Template :=
  expression .functionCall
    (.text name :: slots.flatMap fun slot => [.text " ", .value slot (.upTo .atomic)])

/-- A command before its arguments, none in parentheses. -/
def command (name : String) (slots : List String) : Template :=
  statement (.text name :: slots.flatMap fun slot => [.text " ", .value slot (.upTo .none)])

end Template

namespace Design

def keywordValue (name : String) (output : OutputType) (keyword : String) : Design :=
  value name output fun _ _ => .word keyword

def keywordStatement (name keyword : String) : Design :=
  statement name fun _ _ => .statement [.text keyword]

def operator (name symbol : String) (precedence : Precedence) (output : OutputType) : Design :=
  value name output fun _ _ => .infixed symbol precedence

def reporter (name keyword : String) (slots : List String) (output : OutputType) : Design :=
  value name output fun _ _ => .call keyword slots

def command (name keyword : String) (slots : List String) : Design :=
  statement name fun _ _ => .command keyword slots

end Design

end AgentBlocks
