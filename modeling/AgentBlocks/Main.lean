import AgentBlocks.CommandLine.Run

/-!
The command on a machine: files and channels are those of the operating system.
-/
namespace AgentBlocks.CommandLine

open Files

def succeeds (action : IO Unit) : IO Bool :=
  (do action; return true) <|> return false

/-- The host that works on the machine. -/
def machineHost : Host IO where
  isFile path := succeeds do
    let _ ← IO.FS.readBinFile path
  canonicalPath path := do
    return (← IO.FS.realPath path).toString
  readText path :=
    (do return String.fromUTF8? (← IO.FS.readBinFile path)) <|> return none
  makeParents path :=
    let parent := parentPath path
    if parent.isEmpty then return true else succeeds (IO.FS.createDirAll parent)
  writeText path text := succeeds (IO.FS.writeFile path text)
  print text := IO.print text
  report line := IO.eprintln line

def help : String :=
  "Generates agent-based model source from a saved block-editor project.\n\n" ++
    "Arguments: [INPUT] [OUTPUT]\n" ++
    "  --indent N      Spaces per indentation level (2 by default).\n" ++
    "  --no-prefix     Omit the globals/breed declaration prefix.\n" ++
    "  --list-blocks   List every block type in the catalog and exit.\n" ++
    "  -v, --verbose   Accepted for compatibility with scripts.\n" ++
    "  -h, --help      Show this text.\n"

end AgentBlocks.CommandLine

open AgentBlocks AgentBlocks.CommandLine in
def main (texts : List String) : IO UInt32 := do
  match Arguments.parse texts with
  | .error .displayHelp => IO.print help; return 0
  | .error _ => IO.eprintln "The arguments are not understood. Try --help."; return 2
  | .ok arguments =>
    match ← run machineHost arguments with
    | .ok () => return 0
    | .error e => IO.eprintln ("Error: " ++ e.message); return 1
