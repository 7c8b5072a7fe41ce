import AgentBlocks.Registry.Name

/-!
The breeds and variables of a model, in the order in which they were declared. Three breeds are
always there: turtles, patches and links.
-/
namespace AgentBlocks

open Text

/-- What the agents of a breed are. -/
inductive BreedKind where
  | turtle
  | undirectedLink
  | directedLink
  | patch
deriving DecidableEq

namespace BreedKind

def isLink : BreedKind → Bool
  | .undirectedLink | .directedLink => true
  | .turtle | .patch => false

/-- The keyword that declares a breed of this kind. -/
def declarationKeyword : BreedKind → String
  | .turtle | .patch => "breed"
  | .undirectedLink => "undirected-link-breed"
  | .directedLink => "directed-link-breed"

end BreedKind

/-- A breed, with the name of the set of all its agents and the name of one of them. -/
structure Breed where
  plural : String
  singular : String
  kind : BreedKind
  builtin : Bool
deriving DecidableEq

/-- A breed answers to its plural and to its singular, in any case. -/
def Breed.answersTo (b : Breed) (name : String) : Bool :=
  sameName b.plural name || sameName b.singular name

/-- The agents that have a variable of their own, or the model as a whole. -/
inductive Scope where
  | global
  | turtles
  | patches
  | links
  | breed (plural : String)
deriving DecidableEq

/-- The set of agents whose declaration lists a variable; a global variable has none. -/
def Scope.owner : Scope → Option String
  | .global => none
  | .turtles => some "turtles"
  | .patches => some "patches"
  | .links => some "links"
  | .breed plural => some plural

/-- Whether the scope is the breed with the given plural, in any case. -/
def Scope.isOwnedBy (plural : String) : Scope → Bool
  | .breed owner => sameName owner plural
  | _ => false

/-- A variable and who has it. -/
structure Variable where
  name : String
  scope : Scope
deriving DecidableEq

structure Registries where
  breeds : List Breed
  vars : List Variable
deriving DecidableEq

namespace Registries

/-- The breeds of every model. -/
def builtinBreeds : List Breed :=
  [⟨"turtles", "turtle", .turtle, true⟩, ⟨"patches", "patch", .patch, true⟩,
    ⟨"links", "link", .undirectedLink, true⟩]

def empty : Registries := ⟨builtinBreeds, []⟩

instance : Inhabited Registries := ⟨empty⟩

/-- Every name in use: breeds and variables share one space of names. -/
def names (r : Registries) : List String :=
  r.breeds.flatMap (fun b => [b.plural, b.singular]) ++ r.vars.map (·.name)

def findBreed? (r : Registries) (name : String) : Option Breed :=
  r.breeds.find? (·.answersTo name)

def findVariable? (r : Registries) (name : String) : Option Variable :=
  r.vars.find? fun v => sameName v.name name

def agentSets (r : Registries) : List String := r.breeds.map (·.plural)

def singularAgents (r : Registries) : List String := r.breeds.map (·.singular)

def customBreeds (r : Registries) : List Breed := r.breeds.filter (!·.builtin)

def turtleBreeds (r : Registries) : List Breed := r.customBreeds.filter (·.kind == .turtle)

def linkBreeds (r : Registries) : List Breed := r.customBreeds.filter (·.kind.isLink)

/-- The variables with exactly the given scope. -/
def variablesIn (r : Registries) (scope : Scope) : List Variable :=
  r.vars.filter (·.scope == scope)

def globalVariables (r : Registries) : List String :=
  (r.variablesIn .global).map (·.name)

end Registries

/-- The declared entries of registries, as they are saved. -/
structure Snapshot where
  breeds : List Breed
  vars : List Variable
deriving DecidableEq

instance : Inhabited Snapshot := ⟨⟨[], []⟩⟩

def Registries.snapshot (r : Registries) : Snapshot := ⟨r.customBreeds, r.vars⟩

end AgentBlocks
