import AgentBlocks.Registry.Edit
import AgentBlocks.Workspace.Basic

/-!
Projects: what is saved of an editing session, the declared entries of the registries and the block
graph.
-/
namespace AgentBlocks

structure Project where
  registries : Snapshot
  workspace : Workspace
deriving DecidableEq

instance : Inhabited Project := ⟨⟨default, default⟩⟩

inductive ProjectError where
  /-- The text is no project in JSON. Where it goes wrong is not told. -/
  | malformed
  | inconsistent (error : RegistryError)
deriving DecidableEq

def ProjectError.message : ProjectError → String
  | .malformed => "Invalid project JSON."
  | .inconsistent e => "Saved registries are inconsistent.: " ++ e.message

namespace Project

def capture (r : Registries) (w : Workspace) : Project := ⟨r.snapshot, w⟩

/-- The registries that declare what the project saves, and its block graph. -/
def parts (p : Project) : Except ProjectError (Registries × Workspace) :=
  match Registries.empty.restore p.registries with
  | .ok (r, _) => .ok (r, p.workspace)
  | .error e => .error (.inconsistent e)

end Project

end AgentBlocks
