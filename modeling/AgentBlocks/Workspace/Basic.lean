import AgentBlocks.Dict
import AgentBlocks.Workspace.FieldValue

/-!
The block graph of an editor. A block names its neighbours by their ids: the blocks plugged into
its value slots, the heads of the chains plugged into its statement slots, and the block that
follows it in its own chain.
-/
namespace AgentBlocks

structure Block where
  blockType : String
  fields : Dict FieldValue
  inputs : Dict String
  statements : Dict String
  next : Option String
  topLevel : Bool
  x : Option Int64
  y : Option Int64
deriving DecidableEq

namespace Block

def new (blockType : String) : Block :=
  ⟨blockType, .empty, .empty, .empty, none, false, none, none⟩

def withField (b : Block) (name : String) (value : FieldValue) : Block :=
  { b with fields := b.fields.insert name value }

def withInput (b : Block) (slot id : String) : Block :=
  { b with inputs := b.inputs.insert slot id }

def withStatement (b : Block) (slot head : String) : Block :=
  { b with statements := b.statements.insert slot head }

def withNext (b : Block) (id : String) : Block := { b with next := some id }

def atTopLevel (b : Block) (x y : Int64) : Block :=
  { b with topLevel := true, x := some x, y := some y }

def field? (b : Block) (name : String) : Option FieldValue := b.fields.get? name

/-- The literal in a field as text, whatever its kind. -/
def fieldText? (b : Block) (name : String) : Option String := (b.field? name).map (·.display)

def hasInput (b : Block) (slot : String) : Bool := b.inputs.contains slot

end Block

/-- A block graph: blocks under their ids. -/
structure Workspace where
  blocks : Dict Block
deriving DecidableEq

namespace Workspace

def empty : Workspace := ⟨.empty⟩

instance : Inhabited Workspace := ⟨empty⟩

/-- The graph with a block under an id, in place of any other under that id. -/
def insert (w : Workspace) (id : String) (b : Block) : Workspace := ⟨w.blocks.insert id b⟩

def block? (w : Workspace) (id : String) : Option Block := w.blocks.get? id

def size (w : Workspace) : Nat := w.blocks.size

/-- Where a top-level block stands in the order of the program: from top to bottom, then from left
to right, then by id. A missing coordinate counts as the greatest one. -/
structure Position where
  y : Int64
  x : Int64
  id : String

def positionOf (id : String) (b : Block) : Position :=
  ⟨b.y.getD Int64.maxValue, b.x.getD Int64.maxValue, id⟩

def Position.precedes (p q : Position) : Bool :=
  let py := p.y.toInt
  let qy := q.y.toInt
  let px := p.x.toInt
  let qx := q.x.toInt
  py < qy || (py == qy && (px < qx || (px == qx && Text.before p.id q.id)))

/-- Puts a position among ordered ones, behind those that precede it. -/
def Position.insort (p : Position) : List Position → List Position
  | [] => [p]
  | q :: rest => if q.precedes p then q :: p.insort rest else p :: q :: rest

def topLevelPositions (w : Workspace) : List Position :=
  ((w.blocks.entries.filter (·.2.topLevel)).map fun e => positionOf e.1 e.2).foldr
    Position.insort []

/-- The ids of the top-level blocks, in the order of their positions. -/
def topLevelIds (w : Workspace) : List String := w.topLevelPositions.map (·.id)

/-- The ids on a chain of at most `n` steps: each block names the one that follows it. -/
def follow (w : Workspace) : Nat → String → List String
  | 0, id => [id]
  | n + 1, id =>
    id :: match (w.block? id).bind (·.next) with
      | none => []
      | some next => w.follow n next

/-- The ids on the chain that starts at an id. After as many steps as there are blocks the chain
has left the graph or has come back to one of its own blocks. -/
def chainIds (w : Workspace) (head : String) : List String := w.follow w.size head

end Workspace

end AgentBlocks
