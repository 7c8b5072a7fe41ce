import AgentBlocks.Catalog.Standard.AgentCommands
import AgentBlocks.Catalog.Standard.AgentSets
import AgentBlocks.Catalog.Standard.Control
import AgentBlocks.Catalog.Standard.Literals
import AgentBlocks.Catalog.Standard.Operators
import AgentBlocks.Catalog.Standard.Procedures
import AgentBlocks.Catalog.Standard.Turtles
import AgentBlocks.Catalog.Standard.Variables

/-!
The standard catalog: all families of block types, in the order of its listing.
-/
namespace AgentBlocks

def Standard.designs : List Design :=
  literalBlocks ++ operatorBlocks ++ agentSetBlocks ++ variableBlocks ++ controlBlocks ++
    procedureBlocks ++ agentCommandBlocks ++ turtleBlocks

/-- The catalog of the standard block types. -/
def Catalog.standard : Catalog :=
  Catalog.empty.registerAll (Standard.designs.map (·.blockType))

theorem Standard.names_nodup : (Standard.designs.map (·.name)).Nodup := by decide +kernel

end AgentBlocks
