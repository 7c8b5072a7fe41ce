import AgentBlocks.Json.Printer
import AgentBlocks.Project.Basic

/-!
Writing of projects as JSON text. Empty dictionaries and absent options are left out.
-/
namespace AgentBlocks

open Json

def BreedKind.toJson : BreedKind → Json
  | .turtle => text "turtle"
  | .undirectedLink => text "undirected-link"
  | .directedLink => text "directed-link"
  | .patch => text "patch"

def Scope.toJson : Scope → Json
  | .global => text "Global"
  | .turtles => text "Turtles"
  | .patches => text "Patches"
  | .links => text "Links"
  | .breed plural => record [("Breed", text plural)]

def Breed.toJson (b : Breed) : Json :=
  record ([("plural", text b.plural), ("singular", text b.singular), ("kind", b.kind.toJson)] ++
    if b.builtin then [("builtin", .bool true)] else [])

def Variable.toJson (v : Variable) : Json :=
  record [("name", text v.name), ("scope", v.scope.toJson)]

def Snapshot.toJson (s : Snapshot) : Json :=
  record [("breeds", .array (s.breeds.map Breed.toJson)),
    ("variables", .array (s.vars.map Variable.toJson))]

/-- Writes a literal. A number that is not finite has no JSON text and becomes null. -/
def FieldValue.toJson : FieldValue → Json
  | .bool b => .bool b
  | .number v => if v.isFinite then .number (Numeral.ofBinary64 v) else .null
  | .text s => Json.text s

def Dict.toJson {α : Type} (write : α → Json) (d : Dict α) : Json :=
  record (d.entries.map fun e => (e.1, write e.2))

/-- A member with a dictionary, left out when that is empty. -/
def dictMember {α : Type} (key : String) (write : α → Json) (d : Dict α) : List (String × Json) :=
  if d.isEmpty then [] else [(key, d.toJson write)]

/-- A member with an option, left out when that is absent. -/
def optionMember {α : Type} (key : String) (write : α → Json) : Option α → List (String × Json)
  | none => []
  | some v => [(key, write v)]

def coordinateJson (n : Int64) : Json := .number (.ofInt n.toInt)

def Block.toJson (b : Block) : Json :=
  record ([("type", text b.blockType)] ++ dictMember "fields" FieldValue.toJson b.fields ++
    dictMember "inputs" text b.inputs ++ dictMember "statements" text b.statements ++
    optionMember "next" text b.next ++ [("topLevel", .bool b.topLevel)] ++
    optionMember "x" coordinateJson b.x ++ optionMember "y" coordinateJson b.y)

def Workspace.toJson (w : Workspace) : Json := record [("blocks", w.blocks.toJson Block.toJson)]

namespace Project

def toJson (p : Project) : Json :=
  record [("registries", p.registries.toJson), ("workspace", p.workspace.toJson)]

def render (p : Project) : String := p.toJson.pretty

end Project

end AgentBlocks
