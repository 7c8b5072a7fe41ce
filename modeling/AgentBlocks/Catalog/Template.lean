import AgentBlocks.Catalog.Rule

/-!
Templates: the text of a block as a sequence of pieces, some fixed and some taken from slots. The
slots are asked for in the order in which they stand in the text.
-/
namespace AgentBlocks

/-- How the chain in a statement slot is set into the text. -/
inductive BodyForm where
  /-- Brackets around the chain, each on a line end; `[]` without a chain. -/
  | bracketed
  /-- As `bracketed`, after a blank; nothing without a chain. -/
  | optional
  /-- Lines of their own; nothing without a chain. -/
  | ownLines
  /-- The chain as it is. -/
  | plain
deriving DecidableEq

namespace BodyForm

def inBrackets (body : String) : String := if body.isEmpty then "[]" else "[\n" ++ body ++ "\n]"

def text (form : BodyForm) (body : String) : String :=
  match form with
  | .bracketed => inBrackets body
  | .optional => if body.isEmpty then "" else " " ++ inBrackets body
  | .ownLines => if body.isEmpty then "" else "\n" ++ body
  | .plain => body

end BodyForm

inductive Piece where
  | text (s : String)
  | value (slot : String) (bound : Bound)
  | body (slot : String) (form : BodyForm)
deriving DecidableEq

/-- The text of a block in pieces. It is an expression of the given class, or without one a
statement. -/
structure Template where
  pieces : List Piece
  precedence : Option Precedence
deriving DecidableEq

namespace Template

def result (t : Template) (code : String) : Phrase :=
  match t.precedence with
  | some p => .value code p
  | none => .statement code

/-- The rule that appends the text of pieces to what is there. -/
def assemble (t : Template) : List Piece → String → Rule
  | [], code => .done (.ok (t.result code))
  | .text s :: rest, code => t.assemble rest (code ++ s)
  | .value slot bound :: rest, code =>
    .needValue slot bound fun child => t.assemble rest (code ++ child)
  | .body slot form :: rest, code =>
    .needStatements slot fun body => t.assemble rest (code ++ form.text body)

def rule (t : Template) : Rule := t.assemble t.pieces ""

theorem handsOn_assemble (t : Template) (pieces : List Piece) (code : String) :
    (t.assemble pieces code).HandsOn := by
  induction pieces generalizing code with
  | nil => exact .done _
  | cons piece rest ih =>
    cases piece with
    | text s => exact ih _
    | value slot bound => exact .value slot bound _ (fun _ => rfl) fun child => ih _
    | body slot form => exact .statements slot _ (fun _ => rfl) fun body => ih _

theorem handsOn_rule (t : Template) : t.rule.HandsOn := t.handsOn_assemble t.pieces ""

def statement (pieces : List Piece) : Template := ⟨pieces, none⟩

/-- An expression in pieces. -/
def expression (precedence : Precedence) (pieces : List Piece) : Template :=
  ⟨pieces, some precedence⟩

end Template

end AgentBlocks
