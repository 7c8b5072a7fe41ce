import AgentBlocks.Catalog.Standard
import AgentBlocks.CommandLine.Arguments
import AgentBlocks.Files.Storage
import AgentBlocks.Program.Basic

/-!
The command: it lists the standard block types, or generates the program of a project and prints
it or writes it into a file.
-/
namespace AgentBlocks

open Files

namespace CommandLine

inductive CommandError where
  | noInput
  | inputNotFound (path : String)
  | storage (error : StorageError)
  | project (error : ProjectError)
  | program (path : String) (error : GenerateError)
deriving DecidableEq

def CommandError.message : CommandError → String
  | .noInput => "An input project file is required unless --list-blocks is given."
  | .inputNotFound path => "Input file not found: '" ++ path ++ "'."
  | .storage e => e.message
  | .project e => e.message
  | .program path e => "Cannot generate code for '" ++ path ++ "'.: " ++ e.message

def barWidth : Nat := 14

/-- A bar that is filled in proportion, rounded to the nearest character. -/
def progressBar (step total width : Nat) : String :=
  let filled := (step * width + total / 2) / total
  String.ofList ('[' :: List.replicate (min filled width) '=' ++
    List.replicate (width - filled) '-' ++ [']'])

def progressLine (label : String) (step total : Nat) : String :=
  "[Generate] " ++ label ++ "... (" ++ toString step ++ "/" ++ toString total ++ ") " ++
    progressBar step total barWidth

/-- A text that ends its last line. -/
def endLine (s : String) : String :=
  if s.isEmpty || s.toList.getLast? == some '\n' then s else s ++ "\n"

variable {m : Type → Type} [Monad m] (host : Host m)

def deliver (output : Option String) (source : String) : m (Except StorageError Unit) := do
  match output with
  | none =>
    host.print (endLine source)
    return .ok ()
  | some path =>
    host.report (progressLine "Writing output" 4 4)
    host.store path (endLine source)

/-- Generates the program of the project in a file. -/
def generateFile (a : Arguments) (input : String) : m (Except CommandError Unit) := do
  let total := if a.output.isSome then 4 else 3
  host.report (progressLine "Reading project" 1 total)
  if !(← host.isFile input) then return .error (.inputNotFound input)
  let path ← host.canonicalPath input
  match ← host.load path with
  | .error e => return .error (.storage e)
  | .ok project =>
    host.report (progressLine "Restoring registries" 2 total)
    match project.parts with
    | .error e => return .error (.project e)
    | .ok (registries, workspace) =>
      host.report (progressLine "Generating code" 3 total)
      match generate .standard ⟨a.indentWidth, !a.noPrefix⟩ workspace registries with
      | .error e => return .error (.program path e)
      | .ok source => return (← deliver host a.output source).mapError .storage

def run (a : Arguments) : m (Except CommandError Unit) := do
  if a.listBlocks then
    host.print Catalog.standard.listing
    return .ok ()
  else
    match a.input with
    | none => return .error .noInput
    | some input => generateFile host a input

end CommandLine

end AgentBlocks
