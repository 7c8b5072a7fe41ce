import AgentBlocks.Catalog.Basic
import AgentBlocks.Program.Basic
import AgentBlocks.Project.Basic

/-!
Editing sessions. A session holds the registries and the block graph that an editor shows, and
keeps the program up to date: after each change it generates the program anew and hands it to the
attached runtime when it differs from the one before.
-/
namespace AgentBlocks

/-- What an editor tells about a change. -/
inductive EditorEvent where
  | create
  | delete
  | change
  | move
  /-- Scrolling, zooming, selecting: nothing that concerns the program. -/
  | view
deriving DecidableEq

def EditorEvent.isMeaningful : EditorEvent → Bool
  | .view => false
  | _ => true

/-- An action on the registries: its result and the registries after it. -/
abbrev RegistryAction (α : Type) := Registries → Except RegistryError α × Registries

/-- The action that performs edits one after the other and stops at the first that is refused. -/
def performEdits : List RegistryEdit → RegistryAction Unit
  | [], r => (.ok (), r)
  | edit :: rest, r =>
    match edit.change r with
    | .ok (r', _) => performEdits rest r'
    | .error e => (.error e, r)

/-- A session. The output is the last program that was generated; the last error tells why there
is none for the present state. The attached runtime is the list of the programs it was handed. -/
structure Session where
  catalog : Catalog
  registries : Registries
  workspace : Workspace
  options : GenerateOptions
  output : String
  lastError : Option GenerateError
  runtime : Option (List String)

namespace Session

def new (c : Catalog) : Session := ⟨c, .empty, .empty, .default, "", none, none⟩

/-- The session with other options. The output stays as it is. -/
def withOptions (s : Session) (options : GenerateOptions) : Session := { s with options }

def withRuntime (s : Session) : Session := { s with runtime := some [] }

def submitted (s : Session) : List String := s.runtime.getD []

def program (s : Session) : Except GenerateError String :=
  generate s.catalog s.options s.workspace s.registries

def regenerate (s : Session) : Session :=
  match s.program with
  | .error e => { s with lastError := some e }
  | .ok source =>
    if source = s.output then { s with lastError := none }
    else { s with
      lastError := none
      output := source
      runtime := s.runtime.map (· ++ [source]) }

/-- The session that edits a project. A project without a program can be edited too. -/
def ofProject (c : Catalog) (p : Project) : Except ProjectError Session := do
  let (registries, workspace) ← p.parts
  return { new c with registries, workspace }.regenerate

/-- Takes over the block graph of the editor after a change. -/
def handleEvent (s : Session) (event : EditorEvent) (w : Workspace) :
    Except GenerateError Unit × Session :=
  if event.isMeaningful then
    let s := { s with workspace := w }.regenerate
    (match s.lastError with
      | some e => .error e
      | none => .ok (), s)
  else (.ok (), s)

/-- Performs an action on the registries and generates the program anew when it succeeds. -/
def editRegistries {α : Type} (s : Session) (action : RegistryAction α) :
    Except RegistryError α × Session :=
  match action s.registries with
  | (.error e, r) => (.error e, { s with registries := r })
  | (.ok value, r) => (.ok value, { s with registries := r }.regenerate)

def fieldOptions? (s : Session) (type field : String) : Option (List String) :=
  s.catalog.fieldOptions? s.registries type field

def toProject (s : Session) : Project := .capture s.registries s.workspace

end Session

end AgentBlocks
