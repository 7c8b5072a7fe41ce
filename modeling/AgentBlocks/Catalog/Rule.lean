import AgentBlocks.Catalog.Precedence
import AgentBlocks.Program.Error

/-!
Rules that render a block. A rule asks for the text of one slot after the other and goes on with
the answer, which may also be an error; in the end it gives the phrase of the block or an error.
-/
namespace AgentBlocks

/-- What stands for a block in the program: its text, and for an expression its class. -/
inductive Phrase where
  | statement (code : String)
  | value (code : String) (precedence : Precedence)
deriving DecidableEq

namespace Phrase

def code : Phrase → String
  | .statement code => code
  | .value code _ => code

/-- The class; that of a statement is `none`. -/
def precedence : Phrase → Precedence
  | .statement _ => .none
  | .value _ precedence => precedence

end Phrase

/-- A rule that renders one block: it ends, or it asks for a value slot within a bound, or for a
statement slot. -/
inductive Rule where
  | done (result : Except GenerateError Phrase)
  | value (slot : String) (bound : Bound) (next : Except GenerateError String → Rule)
  | statements (slot : String) (next : Except GenerateError String → Rule)

namespace Rule

def fail (e : GenerateError) : Rule := .done (.error e)

/-- Asks for a value slot and hands an error on. -/
def needValue (slot : String) (bound : Bound) (next : String → Rule) : Rule :=
  .value slot bound fun
    | .ok code => next code
    | .error e => fail e

def needStatements (slot : String) (next : String → Rule) : Rule :=
  .statements slot fun
    | .ok body => next body
    | .error e => fail e

/-- The rule hands every error on. -/
inductive HandsOn : Rule → Prop
  | done (result : Except GenerateError Phrase) : HandsOn (.done result)
  | value (slot : String) (bound : Bound) (next : Except GenerateError String → Rule)
      (error : ∀ e, next (.error e) = fail e) (ok : ∀ code, HandsOn (next (.ok code))) :
      HandsOn (.value slot bound next)
  | statements (slot : String) (next : Except GenerateError String → Rule)
      (error : ∀ e, next (.error e) = fail e) (ok : ∀ body, HandsOn (next (.ok body))) :
      HandsOn (.statements slot next)

end Rule

end AgentBlocks
