/-!
Arguments of the command line: at most two paths, the options `--indent`, `--no-prefix`,
`--list-blocks` and `--verbose`, and a request for help. The arguments are read from the left, and
the first fault counts. A value that stands by itself is checked when the next argument is read.
-/
namespace AgentBlocks.CommandLine

inductive UsageError where
  | unknownArgument
  | invalidValue
  | valueValidation
  | argumentConflict
  | tooManyValues
  | displayHelp
deriving DecidableEq

structure Arguments where
  input : Option String
  output : Option String
  indent : Option Nat
  noPrefix : Bool
  listBlocks : Bool
  verbose : Bool
deriving DecidableEq

def Arguments.none : Arguments := ⟨.none, .none, .none, false, false, false⟩

/-- The width of a level: two blanks unless another number was given. -/
def Arguments.indentWidth (a : Arguments) : Nat := a.indent.getD 2

/-- A value that has been read but not checked. -/
inductive Pending where
  | nothing
  | path (text : String)
  | indent (text : Option String)
deriving DecidableEq

/-- The state of the reading: what was given, the number of paths among it, and the value that is
still to be checked. -/
structure Progress where
  given : Arguments
  paths : Nat
  pending : Pending

def widthLimit : Nat := 18446744073709551615

/-- The number that digits denote, with an optional plus before them. -/
def width? (text : String) : Option Nat :=
  let digits := match text.toList with
    | '+' :: rest => rest
    | cs => cs
  if digits.isEmpty || !digits.all (fun c => '0' ≤ c && c ≤ '9') then .none
  else
    let n := digits.foldl (fun n c => 10 * n + (c.toNat - '0'.toNat)) 0
    if n ≤ widthLimit then some n else .none

/-- Takes the value of `--indent`, which may be given once. -/
def takeIndent (p : Progress) (text : String) : Except UsageError Progress :=
  if p.given.indent.isSome then .error .argumentConflict
  else
    match width? text with
    | some n => .ok { p with given := { p.given with indent := some n } }
    | .none => .error .valueValidation

def settle (p : Progress) : Except UsageError Progress :=
  let done := { p with pending := .nothing }
  match p.pending with
  | .nothing => .ok done
  | .path text =>
    if text.isEmpty then .error .invalidValue
    else if p.given.input.isNone then .ok { done with given := { p.given with input := some text } }
    else .ok { done with given := { p.given with output := some text } }
  | .indent .none => .error .invalidValue
  | .indent (some text) => takeIndent done text

inductive Switch where
  | noPrefix
  | listBlocks
  | verbose
  | help
deriving DecidableEq

def setSwitch (p : Progress) (s : Switch) : Except UsageError Progress := do
  let p ← settle p
  match s with
  | .help => .error .displayHelp
  | .noPrefix =>
    if p.given.noPrefix then .error .argumentConflict
    else .ok { p with given := { p.given with noPrefix := true } }
  | .listBlocks =>
    if p.given.listBlocks then .error .argumentConflict
    else .ok { p with given := { p.given with listBlocks := true } }
  | .verbose =>
    if p.given.verbose then .error .argumentConflict
    else .ok { p with given := { p.given with verbose := true } }

def longSwitch? (name : String) : Option Switch :=
  if name = "no-prefix" then some .noPrefix
  else if name = "list-blocks" then some .listBlocks
  else if name = "verbose" then some .verbose
  else if name = "help" then some .help
  else .none

def shortSwitch? (c : Char) : Option Switch :=
  if c = 'v' then some .verbose else if c = 'h' then some .help else .none

/-- Reads an argument after two hyphens: a name, and a value after an equals sign. -/
def readLong (p : Progress) (text : List Char) : Except UsageError Progress :=
  let name := String.ofList (text.takeWhile (· != '='))
  let value := match text.dropWhile (· != '=') with
    | [] => Option.none
    | _ :: rest => some (String.ofList rest)
  if name = "indent" then do
    let p ← settle p
    match value with
    | some text => takeIndent p text
    | .none => .ok { p with pending := .indent .none }
  else
    match longSwitch? name with
    | .none => .error .unknownArgument
    | some s => if value.isSome then .error .tooManyValues else setSwitch p s

/-- Reads letters after one hyphen. -/
def readShort (p : Progress) : List Char → Except UsageError Progress
  | [] => .ok p
  | c :: rest =>
    match shortSwitch? c with
    | .none => .error .unknownArgument
    | some s => do readShort (← setSwitch p s) rest

def readPath (p : Progress) (text : String) : Except UsageError Progress :=
  if p.paths < 2 then do
    let p ← settle p
    .ok { p with paths := p.paths + 1, pending := .path text }
  else .error .unknownArgument

def readArgument (p : Progress) (text : String) : Except UsageError Progress :=
  match text.toList with
  | '-' :: '-' :: rest => readLong p rest
  | '-' :: c :: rest => readShort p (c :: rest)
  | _ =>
    match p.pending with
    | .indent .none => .ok { p with pending := .indent (some text) }
    | _ => readPath p text

/-- Reads arguments. After `--` all are paths. -/
def readAll (onlyPaths : Bool) : List String → Progress → Except UsageError Progress
  | [], p => settle p
  | text :: rest, p => do
    if onlyPaths then readAll true rest (← readPath p text)
    else if text = "--" then readAll true rest p
    else readAll false rest (← readArgument p text)

/-- The arguments that texts form. -/
def Arguments.parse (texts : List String) : Except UsageError Arguments :=
  (readAll false texts ⟨.none, 0, .nothing⟩).map (·.given)

end AgentBlocks.CommandLine
