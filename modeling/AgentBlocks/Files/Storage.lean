import AgentBlocks.Files.Host
import AgentBlocks.Project.Decode
import AgentBlocks.Project.Encode

/-!
Loading and saving of projects.
-/
namespace AgentBlocks

open Files

inductive StorageError where
  | unreadable (path : String)
  | malformed (path : String)
  | noDirectory
  | unwritable (path : String)
deriving DecidableEq

/-- The wording of the reason. Where the host gives none of its own, it is empty. -/
def StorageError.message : StorageError → String
  | .unreadable path => "Failed to read '" ++ path ++ "'."
  | .malformed path =>
    "Failed to load project '" ++ path ++ "'.: " ++ ProjectError.malformed.message
  | .noDirectory => ""
  | .unwritable path => "Failed to write '" ++ path ++ "'."

namespace Files.Host

variable {m : Type → Type} [Monad m] (host : Host m)

def load (path : String) : m (Except StorageError Project) := do
  match ← host.readText path with
  | none => return .error (.unreadable path)
  | some text =>
    match Project.parse text with
    | .ok p => return .ok p
    | .error _ => return .error (.malformed path)

/-- Writes a text into a file and makes the directory that is to hold it. -/
def store (path text : String) : m (Except StorageError Unit) := do
  if ← host.makeParents path then
    if ← host.writeText path text then return .ok () else return .error (.unwritable path)
  else return .error .noDirectory

def save (p : Project) (path : String) : m (Except StorageError Unit) := host.store path p.render

end Files.Host

end AgentBlocks
