import AgentBlocks.Files.Path

/-!
Places in a file system, as names from a directory that is always there: the root, the working
directory, or one of those that hold the working directory. Each place has one such description.
-/
namespace AgentBlocks.Files

/-- The directory that the names of a place start from. -/
inductive Base where
  | root
  /-- The directory so many levels above the working directory. -/
  | working (levels : Nat)
deriving DecidableEq

/-- A place: the names that lead to it from its base. -/
structure Place where
  base : Base
  names : List String
deriving DecidableEq

namespace Place

def working : Place := ⟨.working 0, []⟩

def root : Place := ⟨.root, []⟩

/-- The place that a path is followed from. -/
def start (path : String) : Place := if isAbsolute path then root else working

def child (p : Place) (name : String) : Place := ⟨p.base, p.names ++ [name]⟩

/-- The directory that holds a place. The root holds itself. -/
def above : Place → Place
  | ⟨.working levels, []⟩ => ⟨.working (levels + 1), []⟩
  | ⟨base, names⟩ => ⟨base, names.dropLast⟩

def isInside (p : Place) : Bool := p.base == .working 0

def path (p : Place) : String :=
  match p.base with
  | .root => "/" ++ "/".intercalate p.names
  | .working levels => "/".intercalate (List.replicate levels ".." ++ p.names)

end Place

end AgentBlocks.Files
