import AgentBlocks.Files.Place

/-!
Trees of files and directories around a working directory. A path is followed step by step; each
step but the last one must lead to a directory that exists, and each must be short enough to be a
name.
-/
namespace AgentBlocks.Files

def encodeText (s : String) : List UInt8 := s.toUTF8.data.toList

/-- The text with the given bytes, if they form one. -/
def decodeText? (bytes : List UInt8) : Option String := String.fromUTF8? ⟨bytes.toArray⟩

/-- What stands at a place: a directory, or a file with its bytes. -/
inductive Entry where
  | directory
  | file (bytes : List UInt8)
deriving DecidableEq

/-- A tree: places, each with what stands there. -/
structure Tree where
  entries : List (Place × Entry)
deriving DecidableEq

namespace Tree

def empty : Tree := ⟨[]⟩

/-- What stands at a place. A base is always there. -/
def entry? (t : Tree) (place : Place) : Option Entry :=
  if place.names.isEmpty then some .directory
  else (t.entries.find? (·.1 == place)).map (·.2)

def isDirectory (t : Tree) (place : Place) : Bool := t.entry? place == some .directory

def put (t : Tree) (place : Place) (e : Entry) : Tree :=
  ⟨t.entries.filter (·.1 != place) ++ [(place, e)]⟩

/-- Follows steps from a directory. The last name may be missing. -/
def followSteps (t : Tree) (place : Place) : List String → Option Place
  | [] => some place
  | step :: rest =>
    if step = "" ∨ step = "." then t.followSteps place rest
    else if step = ".." then t.followSteps place.above rest
    else if !fitsName step then none
    else if rest.isEmpty then some (place.child step)
    else if t.isDirectory (place.child step) then t.followSteps (place.child step) rest
    else none

def place? (t : Tree) (path : String) : Option Place :=
  if path.isEmpty || !isFollowable path then none
  else t.followSteps (Place.start path) ((steps path.toList).map String.ofList)

def named? (t : Tree) (path : String) : Option Entry := (t.place? path).bind t.entry?

/-- Makes the directories that steps lead through, as far as they are missing. -/
def makeSteps (t : Tree) (place : Place) : List String → Option Tree
  | [] => some t
  | step :: rest =>
    if step = ".." then t.makeSteps place.above rest
    else if !fitsName step then none
    else
      match t.entry? (place.child step) with
      | some .directory => t.makeSteps (place.child step) rest
      | some (.file _) => none
      | none => (t.put (place.child step) .directory).makeSteps (place.child step) rest

/-- Makes the directory that is to hold what a path names. -/
def makeParents (t : Tree) (path : String) : Option Tree :=
  let parent := parentPath path
  if isFollowable parent then t.makeSteps (Place.start parent) (movingSteps parent) else none

/-- Writes a file. There is none when the path leads to a directory or to no place. -/
def write (t : Tree) (path : String) (bytes : List UInt8) : Option Tree := do
  let place ← t.place? path
  if t.isDirectory place then none else some (t.put place (.file bytes))

/-- The text of a file. There is none when its bytes are no text. -/
def readText (t : Tree) (path : String) : Option String :=
  match t.named? path with
  | some (.file bytes) => decodeText? bytes
  | _ => none

/-- The files below the working directory that are new or differ from those of an earlier tree. -/
def changedFiles (earlier later : Tree) : List (Place × List UInt8) :=
  later.entries.filterMap fun
    | (place, .file bytes) =>
      if place.isInside && earlier.entry? place != some (.file bytes) then some (place, bytes)
      else none
    | _ => none

end Tree

end AgentBlocks.Files
