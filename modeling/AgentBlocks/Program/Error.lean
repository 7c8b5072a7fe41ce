/-!
Reasons why a block graph has no program.
-/
namespace AgentBlocks

inductive GenerateError where
  | unknownBlockType (blockType id : String)
  | missingBlock (id : String)
  | cyclicGraph (id : String)
deriving DecidableEq

def GenerateError.message : GenerateError → String
  | .unknownBlockType blockType id =>
    "Unknown block type '" ++ blockType ++ "' (block '" ++ id ++ "')."
  | .missingBlock id => "Block '" ++ id ++ "' is referenced but missing from the workspace."
  | .cyclicGraph id =>
    "Block '" ++ id ++ "' is connected back into itself or sits in two statement chains."

end AgentBlocks
