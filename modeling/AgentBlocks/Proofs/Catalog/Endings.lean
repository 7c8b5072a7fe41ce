import AgentBlocks.Proofs.Catalog.Slots
import Mathlib.Data.List.TakeWhile

/-!
The line of a block and its ending. The chains that are plugged into a standard block stand at the
end of its text, in one of five ways; before them there are words and values alone.
-/
namespace AgentBlocks

def Piece.isBody : Piece → Bool
  | .body _ _ => true
  | .text _ | .value _ _ => false

namespace Template

/-- The pieces before the first chain. -/
def line (t : Template) : List Piece := t.pieces.takeWhile (!·.isBody)

/-- The pieces from the first chain on. -/
def tail (t : Template) : List Piece := t.pieces.dropWhile (!·.isBody)

theorem line_append_tail (t : Template) : t.line ++ t.tail = t.pieces :=
  List.takeWhile_append_dropWhile

theorem isBody_of_mem_line {t : Template} {piece : Piece} (h : piece ∈ t.line) :
    piece.isBody = false := by
  simpa using List.mem_takeWhile_imp h

end Template

/-- How the chains of a block stand at the end of its text. -/
inductive Ending where
  | plain
  | loop
  | branches
  | optional
  | definition
deriving DecidableEq

def Ending.pieces : Ending → List Piece
  | .plain => []
  | .loop => [.body "DO" .bracketed]
  | .branches => [.body "DO" .bracketed, .text " ", .body "ELSE" .bracketed]
  | .optional => [.body "DO" .optional]
  | .definition => [.body "STACK" .ownLines, .text "\nend"]

/-- The rules of the catalog are templates with one of the endings. -/
def Catalog.Ends (c : Catalog) : Prop :=
  ∀ ⦃name type⦄, c.type? name = some type → ∃ ending : Ending, ∀ b r,
    ∃ t : Template, type.rule b r = t.rule ∧ t.tail = ending.pieces

theorem Standard.exists_ending :
    ∀ d ∈ designs, ∃ ending : Ending, ∀ b r, (d.template b r).tail = ending.pieces := by
  simp only [designs, literalBlocks, operatorBlocks, agentSetBlocks, variableBlocks, controlBlocks,
    procedureBlocks, agentCommandBlocks, turtleBlocks, List.forall_mem_append, List.forall_mem_cons]
  repeat' apply And.intro
  all_goals first
    | exact List.forall_mem_nil _
    | exact ⟨.plain, fun _ _ => rfl⟩
    | exact ⟨.loop, fun _ _ => rfl⟩
    | exact ⟨.branches, fun _ _ => rfl⟩
    | exact ⟨.optional, fun _ _ => rfl⟩
    | exact ⟨.definition, fun _ _ => rfl⟩

theorem Catalog.ends_standard : Catalog.standard.Ends := by
  intro name type h
  obtain ⟨d, hd, rfl⟩ := Standard.exists_design h
  obtain ⟨ending, hending⟩ := Standard.exists_ending d hd
  exact ⟨ending, fun b r => ⟨d.template b r, rfl, hending b r⟩⟩

end AgentBlocks
