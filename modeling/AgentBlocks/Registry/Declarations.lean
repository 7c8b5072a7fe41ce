import AgentBlocks.Registry.Basic

/-!
The declarations at the head of a program: the global variables, the breeds, and for each set of
agents the variables that its members own.
-/
namespace AgentBlocks.Registries

/-- Adds a variable to the list of its owner, which is opened at its first variable. -/
def addOwned (owner name : String) : List (String × List String) → List (String × List String)
  | [] => [(owner, [name])]
  | (o, names) :: rest =>
    if o = owner then (o, names ++ [name]) :: rest else (o, names) :: addOwned owner name rest

/-- The owners in the order of their first variable, each with its variables. -/
def ownedVariables (r : Registries) : List (String × List String) :=
  r.vars.foldl (fun lists v =>
    match v.scope.owner with
    | none => lists
    | some owner => addOwned owner v.name lists) []

def bracketedNames (names : List String) : String := "[ " ++ " ".intercalate names ++ " ]"

def breedLine (b : Breed) : String :=
  b.kind.declarationKeyword ++ " " ++ bracketedNames [b.plural, b.singular]

def ownLine (owner : String) (names : List String) : String :=
  owner ++ "-own " ++ bracketedNames names

/-- The sections of declarations; one without entries is left out. -/
def declarations (r : Registries) : List String :=
  let globals := r.globalVariables
  let breeds := r.customBreeds
  let owned := r.ownedVariables
  (if globals.isEmpty then [] else ["globals " ++ bracketedNames globals]) ++
    (if breeds.isEmpty then [] else ["\n".intercalate (breeds.map breedLine)]) ++
    (if owned.isEmpty then [] else ["\n".intercalate (owned.map fun o => ownLine o.1 o.2)])

end AgentBlocks.Registries
