import AgentBlocks.Catalog.Standard
import AgentBlocks.Program.Basic
import AgentBlocks.Project.Decode

/-!
Programs of projects in JSON text, with the standard block types.
-/
namespace AgentBlocks

inductive SourceError where
  | project (error : ProjectError)
  | program (error : GenerateError)
deriving DecidableEq

def SourceError.message : SourceError → String
  | .project e => e.message
  | .program e => e.message

/-- The program of a project in JSON text. -/
def generateFromText (text : String) (options : GenerateOptions) : Except SourceError String := do
  let project ← (Project.parse text).mapError .project
  let (registries, workspace) ← project.parts.mapError .project
  (generate .standard options workspace registries).mapError .program

section Stages

variable {text : String} {p : Project} {e : ProjectError}

theorem generateFromText_of_unread (h : Project.parse text = .error e)
    (options : GenerateOptions) : generateFromText text options = .error (.project e) := by
  rw [generateFromText, h]
  rfl

theorem generateFromText_of_inconsistent (hp : Project.parse text = .ok p)
    (h : p.parts = .error e) (options : GenerateOptions) :
    generateFromText text options = .error (.project e) := by
  rw [generateFromText, hp]
  change (p.parts.mapError SourceError.project >>= _) = _
  rw [h]
  rfl

theorem generateFromText_of_parts {r : Registries} {w : Workspace}
    (hp : Project.parse text = .ok p) (h : p.parts = .ok (r, w)) (options : GenerateOptions) :
    generateFromText text options = (generate .standard options w r).mapError .program := by
  rw [generateFromText, hp]
  change (p.parts.mapError SourceError.project >>= _) = _
  rw [h]
  rfl

end Stages

end AgentBlocks
