/-!
File paths as texts: names with slashes between them.
-/
namespace AgentBlocks.Files

/-- The steps of a path, with the empty ones that come from repeated or final slashes. -/
def steps (path : List Char) : List (List Char) :=
  path.foldr (fun c parts =>
    match c, parts with
    | '/', parts => [] :: parts
    | c, [] => [[c]]
    | c, part :: rest => (c :: part) :: rest) [[]]

/-- A step that leads nowhere else. -/
def isIdle (step : List Char) : Bool := step.isEmpty || step == ['.']

/-- Steps without the idle ones at their end. -/
def withoutIdleEnd (parts : List (List Char)) : List (List Char) :=
  (parts.reverse.dropWhile isIdle).reverse

def isAbsolute (path : String) : Bool := path.toList.head? == some '/'

/-- The steps of a path that lead somewhere. -/
def movingSteps (path : String) : List String :=
  ((steps path.toList).filter fun step => !isIdle step).map String.ofList

/-- The path to the directory that is to hold what a path names. It is empty where that is the
working directory. -/
def parentPath (path : String) : String :=
  let parent := withoutIdleEnd (withoutIdleEnd (steps path.toList)).dropLast
  let text := String.ofList (['/'].intercalate parent)
  if text.isEmpty && isAbsolute path then "/" else text

def nameLimit : Nat := 255

def pathLimit : Nat := 4095

def fitsName (step : String) : Bool := step.utf8ByteSize ≤ nameLimit

/-- Whether a path can be followed: no NUL stands in it, and it is not too long. -/
def isFollowable (path : String) : Bool :=
  !path.toList.contains '\x00' && path.utf8ByteSize ≤ pathLimit

end AgentBlocks.Files
