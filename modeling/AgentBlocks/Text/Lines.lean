/-!
Lines of a text and their indentation. A line feed ends a line, together with one carriage
return right before it; what follows the last line feed is a line only when it is not empty.
-/
namespace AgentBlocks.Text

/-- One step of the division into lines, from the right. The flag says that the character to the
right is a line feed. -/
def lineStep (c : Char) : List (List Char) × Bool → List (List Char) × Bool
  | (lines, atFeed) =>
    if c = '\n' then ([] :: lines, true)
    else if c = '\r' && atFeed then (lines, false)
    else match lines with
      | [] => ([[c]], false)
      | line :: rest => ((c :: line) :: rest, false)

def lines (cs : List Char) : List (List Char) := (cs.foldr lineStep ([], false)).1

/-- A line moved to the right; an empty line stays empty. -/
def indentLine (width : Nat) (line : List Char) : List Char :=
  if line.isEmpty then [] else List.replicate width ' ' ++ line

def indent (width : Nat) (s : String) : String :=
  "\n".intercalate ((lines s.toList).map fun line => String.ofList (indentLine width line))

example : indent 2 "fd 1\n\nrt 90" = "  fd 1\n\n  rt 90" := by cbv

example : lines "a\r\nb\r\r\nc\r".toList = ["a".toList, "b\r".toList, "c\r".toList] := by cbv

end AgentBlocks.Text
