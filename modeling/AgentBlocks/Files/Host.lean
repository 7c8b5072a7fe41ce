import AgentBlocks.Files.Tree

/-!
What a program may do outside itself: look at files, write them, and print. A host carries the
actions out, either on a tree in memory or on a machine.
-/
namespace AgentBlocks.Files

/-- The actions of a host. Each tells whether it succeeded. -/
structure Host (m : Type → Type) where
  /-- Whether a path names a file. -/
  isFile : String → m Bool
  /-- The one spelling of a path that names a file. -/
  canonicalPath : String → m String
  /-- The text of a file. -/
  readText : String → m (Option String)
  /-- Makes the directory that is to hold what a path names. -/
  makeParents : String → m Bool
  /-- Writes a text into a file. -/
  writeText : String → String → m Bool
  /-- Prints a part of the result. -/
  print : String → m Unit
  /-- Prints a line about the progress. -/
  report : String → m Unit

/-- A machine in memory: its files, and what was printed on its two channels. -/
structure Machine where
  tree : Tree
  printed : String
  reported : String

/-- The machine with some files on which nothing was printed. -/
def Machine.ofTree (tree : Tree) : Machine := ⟨tree, "", ""⟩

/-- The host that works on a machine in memory. -/
def memoryHost : Host (StateM Machine) where
  isFile path := fun m =>
    (match m.tree.named? path with
      | some (.file _) => true
      | _ => false, m)
  canonicalPath path := fun m => (((m.tree.place? path).map Place.path).getD "", m)
  readText path := fun m => (m.tree.readText path, m)
  makeParents path := fun m =>
    match m.tree.makeParents path with
    | some tree => (true, { m with tree })
    | none => (false, m)
  writeText path text := fun m =>
    match m.tree.write path (encodeText text) with
    | some tree => (true, { m with tree })
    | none => (false, m)
  print text := fun m => ((), { m with printed := m.printed ++ text })
  report line := fun m => ((), { m with reported := m.reported ++ line ++ "\n" })

end AgentBlocks.Files
