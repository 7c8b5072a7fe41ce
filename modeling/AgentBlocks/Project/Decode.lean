import AgentBlocks.Json.Reader
import AgentBlocks.Project.Basic

/-!
Reading of projects from JSON text. A record is written as an object, where unknown members are
passed over and a known one stands at most once, or as an array of its members in order. A
dictionary is an object, where of a repeated key the last value counts.
-/
namespace AgentBlocks

namespace Json

/-- The value of the member with a key: none when it is absent, and no reading at all when it
stands twice. -/
def memberOnce? (members : List (String × Json)) (key : String) : Option (Option Json) :=
  match members.filter (·.1 == key) with
  | [] => some none
  | [m] => some (some m.2)
  | _ => none

/-- The members of a record in the order of the given keys. -/
def recordMembers? (keys : List String) (j : Json) : Option (List (Option Json)) :=
  match j with
  | .array items =>
    if items.length ≤ keys.length then
      some (items.map some ++ List.replicate (keys.length - items.length) none)
    else none
  | j => do
    let members ← j.members?
    keys.mapM (memberOnce? members)

def required? {α : Type} (read : Json → Option α) (member : Option Json) : Option α :=
  member.bind read

def optional? {α : Type} (default : α) (read : Json → Option α) : Option Json → Option α
  | none => some default
  | some j => read j

def nullable? {α : Type} (read : Json → Option α) : Json → Option (Option α)
  | .null => some none
  | j => (read j).map some

def list? {α : Type} (read : Json → Option α) (j : Json) : Option (List α) := do
  (← j.items?).mapM read

def dict? {α : Type} (read : Json → Option α) (j : Json) : Option (Dict α) := do
  let members ← j.members?
  let entries ← members.mapM fun m => (read m.2).map fun v => (m.1, v)
  return .ofList entries

/-- The name of a choice and what comes with it: a text, or an object with one member. -/
def choice? : Json → Option (String × Json)
  | .string (some name) => some (name, .null)
  | .object [(some name, value)] => some (name, value)
  | _ => none

end Json

open Json

def BreedKind.ofJson? (j : Json) : Option BreedKind := do
  match ← j.choice? with
  | ("turtle", .null) => some .turtle
  | ("undirected-link", .null) => some .undirectedLink
  | ("directed-link", .null) => some .directedLink
  | ("patch", .null) => some .patch
  | _ => none

def Scope.ofJson? (j : Json) : Option Scope := do
  match ← j.choice? with
  | ("Global", .null) => some .global
  | ("Turtles", .null) => some .turtles
  | ("Patches", .null) => some .patches
  | ("Links", .null) => some .links
  | ("Breed", .string (some plural)) => some (.breed plural)
  | _ => none

def Breed.ofJson? (j : Json) : Option Breed := do
  match ← j.recordMembers? ["plural", "singular", "kind", "builtin"] with
  | [plural, singular, kind, builtin] =>
    some {
      plural := ← required? text? plural
      singular := ← required? text? singular
      kind := ← required? BreedKind.ofJson? kind
      builtin := ← optional? false bool? builtin }
  | _ => none

def Variable.ofJson? (j : Json) : Option Variable := do
  match ← j.recordMembers? ["name", "scope"] with
  | [name, scope] =>
    some { name := ← required? text? name, scope := ← required? Scope.ofJson? scope }
  | _ => none

def Snapshot.ofJson? (j : Json) : Option Snapshot := do
  match ← j.recordMembers? ["breeds", "variables"] with
  | [breeds, vars] =>
    some {
      breeds := ← optional? [] (list? Breed.ofJson?) breeds
      vars := ← optional? [] (list? Variable.ofJson?) vars }
  | _ => none

def FieldValue.ofJson? : Json → Option FieldValue
  | .bool b => some (.bool b)
  | .number n => n.binary64?.map .number
  | .string s => s.map .text
  | _ => none

/-- Reads a coordinate, an integer of 64 bits. -/
def coordinate? (j : Json) : Option Int64 := do
  let n ← j.integer?
  if Int64.minValue.toInt ≤ n ∧ n ≤ Int64.maxValue.toInt then some (.ofInt n) else none

def Block.ofJson? (j : Json) : Option Block := do
  match ← j.recordMembers?
    ["type", "fields", "inputs", "statements", "next", "topLevel", "x", "y"] with
  | [type, fields, inputs, statements, next, topLevel, x, y] =>
    some {
      blockType := ← required? text? type
      fields := ← optional? .empty (dict? FieldValue.ofJson?) fields
      inputs := ← optional? .empty (dict? text?) inputs
      statements := ← optional? .empty (dict? text?) statements
      next := ← optional? none (nullable? text?) next
      topLevel := ← optional? false bool? topLevel
      x := ← optional? none (nullable? coordinate?) x
      y := ← optional? none (nullable? coordinate?) y }
  | _ => none

def Workspace.ofJson? (j : Json) : Option Workspace := do
  match ← j.recordMembers? ["blocks"] with
  | [blocks] => some { blocks := ← optional? .empty (dict? Block.ofJson?) blocks }
  | _ => none

namespace Project

def ofJson? (j : Json) : Option Project := do
  match ← j.recordMembers? ["registries", "workspace"] with
  | [registries, workspace] =>
    some {
      registries := ← optional? default Snapshot.ofJson? registries
      workspace := ← optional? default Workspace.ofJson? workspace }
  | _ => none

def parse (s : String) : Except ProjectError Project :=
  match (Json.parse? s).bind ofJson? with
  | some p => .ok p
  | none => .error .malformed

end Project

end AgentBlocks
