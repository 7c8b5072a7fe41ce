import AgentBlocks.Catalog.Basic
import AgentBlocks.Program.Trail
import AgentBlocks.Text.Lines

/-!
The walk over a block graph. A chain is walked block by block; the rule of each block asks for its
slots, which are walked in turn.
-/
namespace AgentBlocks

/-- What a walk goes by. -/
structure Surroundings where
  catalog : Catalog
  workspace : Workspace
  registries : Registries
  indentWidth : Nat

namespace Surroundings

variable (s : Surroundings)

def lookup (id : String) : Except GenerateError (Block × BlockType) :=
  match s.workspace.block? id with
  | none => .error (.missingBlock id)
  | some b =>
    match s.catalog.type? b.blockType with
    | none => .error (.unknownBlockType b.blockType id)
    | some type => .ok (b, type)

/-- Follows a rule: value slots and statement slots are walked as the two functions say. A value
slot that is left empty has the default text, a statement slot no text. -/
def runRule (b : Block) (type : BlockType) (value : String → Walk (String × Precedence))
    (chain : String → Walk String) : Rule → Walk Phrase
  | .done result => .result result
  | .value slot bound next =>
    match b.inputs.get? slot with
    | none => runRule b type value chain (next (.ok (type.defaultFor slot)))
    | some child => do
      let outcome ← (value child).attempt
      runRule b type value chain (next (outcome.map fun (code, p) => bound.enclose code p))
  | .statements slot next =>
    match b.statements.get? slot with
    | none => runRule b type value chain (next (.ok ""))
    | some head => do
      let outcome ← (chain head).attempt
      runRule b type value chain (next (outcome.map (Text.indent s.indentWidth)))

/-- A text before others, unless it is empty. -/
def consText (code : String) (codes : List String) : List String :=
  if code.isEmpty then codes else code :: codes

/-- Walks the blocks of a chain one after the other and gives the texts that are not empty. -/
def walkBlocks (render : Block → BlockType → Walk Phrase) : List String → Walk (List String)
  | [] => pure []
  | id :: rest => do
    .place id
    let (b, type) ← .result (s.lookup id)
    let phrase ← render b type
    let codes ← walkBlocks render rest
    return consText phrase.code codes

def walkChain (render : Block → BlockType → Walk Phrase) (head : String) : Walk String := do
  return "\n".intercalate (← s.walkBlocks render (s.workspace.chainIds head))

/-- Walks an expression and gives its text and class. -/
def walkValue (render : Block → BlockType → Walk Phrase) (id : String) :
    Walk (String × Precedence) := do
  .checkFree id
  let (b, type) ← .result (s.lookup id)
  let phrase ← (render b type).inside id
  return (phrase.code, phrase.precedence)

/-- Renders a block with at most `depth` blocks rendered one inside the other, itself included. -/
def render : Nat → Block → BlockType → Walk Phrase
  | 0, _, _ => .tooDeep
  | depth + 1, b, type =>
    s.runRule b type (s.walkValue (render depth)) (s.walkChain (render depth))
      (type.rule b s.registries)

/-- Walks the chains that start at the given ids and gives the texts that are not empty. -/
def walkHeads (depth : Nat) : List String → Walk (List String)
  | [] => pure []
  | head :: rest => do
    let code ← s.walkChain (s.render depth) head
    let codes ← walkHeads depth rest
    return consText code codes

end Surroundings

end AgentBlocks
