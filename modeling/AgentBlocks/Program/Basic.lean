import AgentBlocks.Program.Walk
import AgentBlocks.Registry.Declarations

/-!
Programs of block graphs: the declarations of the registries, when they are wanted, followed by the
chains of the top-level blocks. Blank lines stand between the sections.
-/
namespace AgentBlocks

structure GenerateOptions where
  indentWidth : Nat
  includeDeclarations : Bool
deriving DecidableEq

/-- Two blanks for each level, and with declarations. -/
def GenerateOptions.default : GenerateOptions := ⟨2, true⟩

instance : Inhabited GenerateOptions := ⟨.default⟩

/-- The program of a block graph with at most `depth` blocks rendered one inside the other, or none
when that is not enough. -/
def generateWithin (depth : Nat) (c : Catalog) (options : GenerateOptions) (w : Workspace)
    (r : Registries) : Option (Except GenerateError String) :=
  let s : Surroundings := ⟨c, w, r, options.indentWidth⟩
  match s.walkHeads depth w.topLevelIds .start with
  | none => none
  | some (.error e, _) => some (.error e)
  | some (.ok chains, _) =>
    let declarations := if options.includeDeclarations then r.declarations else []
    some (.ok ("\n\n".intercalate (declarations ++ chains)))

/-- The program of a block graph. The blocks that are being rendered are different ones, so no more
than all of them can be rendered one inside the other. -/
def generate (c : Catalog) (options : GenerateOptions) (w : Workspace) (r : Registries) :
    Except GenerateError String :=
  (generateWithin w.size c options w r).getD (.ok "")

end AgentBlocks
