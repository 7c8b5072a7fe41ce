import AgentBlocks.Proofs.Catalog.Endings
import AgentBlocks.Proofs.Catalog.Wording
import AgentBlocks.Proofs.Text.Inline

/-!
The text around the slots of standard blocks. It closes what it opens, and before the chains there
are no line feeds in it.
-/
namespace AgentBlocks

open Text

/-- Reads a piece. What is plugged in is tidy, and chains are only plugged in behind something. -/
def Piece.read (r : Reading) : Piece → Option Reading
  | .text s => r.run s.toList
  | .value _ _ => if r.nesting.quoting = .outside then some { r with filled := true } else none
  | .body _ _ => if r.nesting.quoting = .outside ∧ r.filled = true then some r else none

/-- The text of the piece has no line feed and does not end in an empty pair of brackets. -/
def Piece.inline : Piece → Bool
  | .text s => decide ('\n' ∉ s.toList ∧ ¬"[]".toList <:+ s.toList)
  | .value _ _ | .body _ _ => true

theorem Piece.inline_text {s : String} :
    (text s).inline = true ↔ '\n' ∉ s.toList ∧ ¬"[]".toList <:+ s.toList :=
  decide_eq_true_iff

namespace Template

/-- The text around the slots closes what it opens, and its line is a single one. -/
structure Framed (t : Template) : Prop where
  reads : t.pieces.foldlM Piece.read .start = some ⟨.start, true⟩
  inline : t.line.all Piece.inline = true

theorem framed_of_inline {word : String} {rest : List Piece} {p : Option Precedence}
    (hword : Inline word) (hrest : rest.foldlM Piece.read ⟨.start, true⟩ = some ⟨.start, true⟩)
    (hinline : (rest.takeWhile (!·.isBody)).all Piece.inline = true) :
    Framed ⟨.text word :: rest, p⟩ := by
  refine ⟨?_, ?_⟩
  · rw [List.foldlM_cons, Piece.read, show Reading.start.run word.toList = _ from hword.tidy]
    exact hrest
  · have hpiece : (Piece.text word).inline = true := Piece.inline_text.2 ⟨hword.feed, hword.bare⟩
    exact Bool.and_eq_true_iff.2 ⟨hpiece, hinline⟩

end Template

namespace Standard

open Template

/-- With the offered choices as words the text of the design is framed. -/
def Closes (r : Registries) (d : Design) : Prop :=
  ∀ b : Block, d.Admits r b → (d.template b r).Framed

theorem closes_literalBlocks (r : Registries) : ∀ d ∈ literalBlocks, Closes r d := by
  simp only [literalBlocks, List.forall_mem_cons]
  refine ⟨?number, ?text, ?boolean, ?color, fun _ _ => ⟨rfl, rfl⟩, List.forall_mem_nil _⟩
  case number => exact fun b _ => framed_of_inline (Binary64.lexeme_display _).inline rfl rfl
  case text => exact fun b _ => framed_of_inline (Lexeme.literal _).inline rfl rfl
  case boolean =>
    intro b _
    refine framed_of_inline ?_ rfl rfl
    generalize ((b.field? "BOOL").bind (·.bool?)).getD false = value
    cases value <;> decide
  case color =>
    intro b hb
    have hcolor := b.lexeme_fieldOr (hb "COLOR" (by decide) colors rfl) lexeme_colors
      (lexeme_of_isValidName (by decide : isValidName "black" = true))
    exact framed_of_inline hcolor.inline rfl rfl

theorem closes_operatorBlocks (r : Registries) : ∀ d ∈ operatorBlocks, Closes r d := by
  simp only [operatorBlocks, List.forall_mem_cons]
  refine ⟨fun _ _ => ⟨rfl, rfl⟩, fun _ _ => ⟨rfl, rfl⟩, fun _ _ => ⟨rfl, rfl⟩,
    fun _ _ => ⟨rfl, rfl⟩, fun _ _ => ⟨rfl, rfl⟩, fun _ _ => ⟨rfl, rfl⟩, fun _ _ => ⟨rfl, rfl⟩,
    fun _ _ => ⟨rfl, rfl⟩, fun _ _ => ⟨rfl, rfl⟩, ?compare, fun _ _ => ⟨rfl, rfl⟩, ?function,
    fun _ _ => ⟨rfl, rfl⟩, fun _ _ => ⟨rfl, rfl⟩, List.forall_mem_nil _⟩
  case compare =>
    intro b _
    have hall : ∀ op : Operator, (infixed op.symbol op.level).Framed := by
      intro op
      cases op <;> exact ⟨rfl, rfl⟩
    have hcompare : ∀ code, (infixed (comparison code).1 (comparison code).2).Framed := by
      intro code
      rw [comparison_eq]
      exact hall _
    exact hcompare (b.fieldOr "OP" "EQ")
  case function =>
    intro b hb
    have hop := b.lexeme_fieldOr (hb "OP" (by decide) mathFunctions rfl) lexeme_mathFunctions
      (lexeme_of_isValidName (by decide : isValidName "abs" = true))
    exact framed_of_inline hop.inline rfl rfl

theorem closes_controlBlocks (r : Registries) : ∀ d ∈ controlBlocks, Closes r d := by
  simp only [controlBlocks, List.forall_mem_cons]
  exact ⟨fun _ _ => ⟨rfl, rfl⟩, fun _ _ => ⟨rfl, rfl⟩, fun _ _ => ⟨rfl, rfl⟩, fun _ _ => ⟨rfl, rfl⟩,
    fun _ _ => ⟨rfl, rfl⟩, fun _ _ => ⟨rfl, rfl⟩, fun _ _ => ⟨rfl, rfl⟩, fun _ _ => ⟨rfl, rfl⟩,
    fun _ _ => ⟨rfl, rfl⟩, fun _ _ => ⟨rfl, rfl⟩, List.forall_mem_nil _⟩

theorem closes_procedureBlocks (r : Registries) : ∀ d ∈ procedureBlocks, Closes r d := by
  have hname : ∀ b : Block, ∀ fallback, Lexeme fallback → Inline (b.nameOr "NAME" fallback) :=
    fun b _ h => (b.lexeme_nameOr "NAME" h).inline
  have hsetup : Lexeme "setup" := lexeme_of_isValidName (by decide)
  simp only [procedureBlocks, List.forall_mem_cons]
  refine ⟨?define, ?reporter, fun _ _ => ⟨rfl, rfl⟩, ?call, ?value, List.forall_mem_nil _⟩
  case define =>
    intro b _
    have hkeyword : Inline ("to" ++ " ") := by decide
    exact framed_of_inline (hkeyword.append (hname b "setup" hsetup)) rfl rfl
  case reporter =>
    intro b _
    have hkeyword : Inline ("to-report" ++ " ") := by decide
    exact framed_of_inline (hkeyword.append (hname b "setup" hsetup)) rfl rfl
  case call => exact fun b _ => framed_of_inline (hname b "setup" hsetup) rfl rfl
  case value =>
    exact fun b _ => framed_of_inline (hname b "0" (.word (by decide) (by decide))) rfl rfl

theorem closes_turtleBlocks (r : Registries) : ∀ d ∈ turtleBlocks, Closes r d := by
  simp only [turtleBlocks, List.forall_mem_cons]
  refine ⟨fun _ _ => ⟨rfl, rfl⟩, fun _ _ => ⟨rfl, rfl⟩, fun _ _ => ⟨rfl, rfl⟩,
    fun _ _ => ⟨rfl, rfl⟩, fun _ _ => ⟨rfl, rfl⟩, ?property, List.forall_mem_nil _⟩
  case property =>
    intro b hb
    have hproperty := b.lexeme_fieldOr (hb "PROP" (by decide) agentProperties rfl)
      lexeme_agentProperties (lexeme_of_isValidName (by decide : isValidName "color" = true))
    have hset : Inline "set " := by decide
    exact framed_of_inline (hset.append hproperty.inline).append_blank rfl rfl

section Names

variable {r : Registries} (hr : r.Coherent)
include hr

theorem closes_agentSetBlocks : ∀ d ∈ agentSetBlocks, Closes r d := by
  simp only [agentSetBlocks, List.forall_mem_cons]
  refine ⟨?breed, fun _ _ => ⟨rfl, rfl⟩, fun _ _ => ⟨rfl, rfl⟩, fun _ _ => ⟨rfl, rfl⟩,
    fun _ _ => ⟨rfl, rfl⟩, fun _ _ => ⟨rfl, rfl⟩, fun _ _ => ⟨rfl, rfl⟩, ?numbered,
    fun _ _ => ⟨rfl, rfl⟩, fun _ _ => ⟨rfl, rfl⟩, fun _ _ => ⟨rfl, rfl⟩, ?property,
    List.forall_mem_nil _⟩
  case breed =>
    intro b hb
    have hbreed := b.lexeme_fieldOr (hb "BREED" (by decide) r.agentSets rfl) (lexeme_agentSets hr)
      (lexeme_of_isValidName (by decide : isValidName "turtles" = true))
    exact framed_of_inline (hr.lexeme_pluralOf hbreed).inline rfl rfl
  case numbered =>
    intro b hb
    have hbreed := b.lexeme_fieldOr (hb "BREED" (by decide) (singularTurtleChoices r) rfl)
      (lexeme_singularTurtleChoices hr)
      (lexeme_of_isValidName (by decide : isValidName "turtle" = true))
    exact framed_of_inline (hr.lexeme_singularOf hbreed).inline rfl rfl
  case property =>
    intro b hb
    have hproperty := b.lexeme_fieldOr (hb "PROP" (by decide) agentProperties rfl)
      lexeme_agentProperties (lexeme_of_isValidName (by decide : isValidName "who" = true))
    exact framed_of_inline hproperty.inline rfl rfl

theorem closes_variableBlocks : ∀ d ∈ variableBlocks, Closes r d := by
  have hvar : ∀ b : Block, ∀ fallback : String, b.OneOf "VAR" (variableChoices r) →
      Lexeme fallback → Inline (r.spellingOf (b.fieldOr "VAR" fallback)) := fun b fallback hb h =>
    (hr.lexeme_spellingOf (b.lexeme_fieldOr hb (lexeme_variableChoices hr) h)).inline
  have hset : Inline "set " := by decide
  have hx : Lexeme "x" := lexeme_of_isValidName (by decide)
  have htemp : Lexeme "temp" := lexeme_of_isValidName (by decide)
  simp only [variableBlocks, List.forall_mem_cons]
  refine ⟨?get, ?set, ?change, ?declare, ?read, List.forall_mem_nil _⟩
  case get =>
    intro b hb
    have hname := hvar b "0" (hb "VAR" (by decide) _ rfl) (.word (by decide) (by decide))
    exact framed_of_inline hname rfl rfl
  case set =>
    intro b hb
    have hname := hvar b "x" (hb "VAR" (by decide) _ rfl) hx
    exact framed_of_inline (hset.append hname).append_blank rfl rfl
  case change =>
    intro b hb
    have hname := hvar b "x" (hb "VAR" (by decide) _ rfl) hx
    have hplus : Inline " + " := by decide
    exact framed_of_inline (((hset.append hname).append_blank.append hname).append hplus) rfl rfl
  case declare =>
    intro b _
    have hlet : Inline "let " := by decide
    exact framed_of_inline (hlet.append (b.lexeme_nameOr "NAME" htemp).inline).append_blank rfl rfl
  case read => exact fun b _ => framed_of_inline (b.lexeme_nameOr "NAME" htemp).inline rfl rfl

theorem closes_creation {name verb : String} (bareTurtles : Bool) (hverb : Lexeme verb)
    (hname : name ≠ "math_function") : Closes r (creation name verb bareTurtles) := by
  intro b hb
  have hverbatim : "BREED" ∈ verbatimFields (creation name verb bareTurtles).name := by
    unfold verbatimFields
    rw [if_neg (show (creation name verb bareTurtles).name ≠ _ from hname)]
    decide
  have hchoice := b.lexeme_fieldOr (hb "BREED" hverbatim (turtleBreedChoices r) rfl)
    (lexeme_turtleBreedChoices hr)
    (lexeme_of_isValidName (by decide : isValidName "turtles" = true))
  have hbreed := hr.lexeme_pluralOf hchoice
  have hdash : Inline "-" := by decide
  refine framed_of_inline (Inline.append_blank ?_) rfl rfl
  split
  · exact hverb.inline
  · exact (hverb.inline.append hdash).append hbreed.inline

theorem closes_agentCommandBlocks : ∀ d ∈ agentCommandBlocks, Closes r d := by
  have hword : ∀ {s : String}, isValidName s = true → Lexeme s := lexeme_of_isValidName
  simp only [agentCommandBlocks, List.forall_mem_cons]
  refine ⟨fun _ _ => ⟨rfl, rfl⟩, closes_creation hr false (hword (by decide)) (by decide),
    closes_creation hr true (hword (by decide)) (by decide),
    closes_creation hr true (hword (by decide)) (by decide), ?link, fun _ _ => ⟨rfl, rfl⟩,
    List.forall_mem_nil _⟩
  case link =>
    intro b hb
    have hbreed := hr.lexeme_singularOf (b.lexeme_fieldOr (hb "BREED" (by decide) _ rfl)
      (lexeme_linkBreedChoices hr) (hword (by decide : isValidName "link" = true)))
    have hcreate : Inline "create-" := by decide
    have hdash : Inline "-" := by decide
    have hdirection := lexeme_linkDirection r (r.singularOf (b.fieldOr "BREED" "link"))
      (b.fieldOr "DIRECTION" "with")
    exact framed_of_inline
      (((hcreate.append hbreed.inline).append hdash).append hdirection.inline).append_blank rfl rfl

theorem closes_designs : ∀ d ∈ designs, Closes r d := by
  simp only [designs, List.forall_mem_append]
  exact ⟨⟨⟨⟨⟨⟨⟨closes_literalBlocks r, closes_operatorBlocks r⟩, closes_agentSetBlocks hr⟩,
    closes_variableBlocks hr⟩, closes_controlBlocks r⟩, closes_procedureBlocks r⟩,
    closes_agentCommandBlocks hr⟩, closes_turtleBlocks r⟩

end Names

/-- The texts of slots that are left empty stand on a single line. -/
theorem inline_defaultFor : ∀ d ∈ designs, ∀ slot, Inline (d.blockType.defaultFor slot) := by
  have hdefaults : ∀ d ∈ designs, ∀ e ∈ d.defaults, Inline e.2 := by decide +kernel
  intro d hd slot
  unfold BlockType.defaultFor
  split
  · rename_i text hfind
    exact hdefaults d hd _ (List.mem_of_find?_eq_some hfind)
  · decide

end Standard

end AgentBlocks