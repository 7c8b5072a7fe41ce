import AgentBlocks.Proofs.Catalog.DeclaredNames
import AgentBlocks.Proofs.Outline.Beginnings
import AgentBlocks.Proofs.Text.EndLines

/-!
How the text of a block begins. A block prints `end` as its first line only when it is a single name
that its author has typed; every other word is either not that one or followed by something else.
-/
namespace AgentBlocks

open Text

/-- The name in the field `NAME` is `end`, in any case and with blanks around it. -/
def Block.namesEnd (b : Block) : Bool := (b.fieldText? "NAME").any fun s => isEndLine s.toList

theorem isEndLine_of_isValidName {name : String} (h : isValidName name = true) :
    isEndLine name.toList = sameName name "end" := by
  have hparts := Outline.isNamePart_of_isValidName h
  rw [isEndLine, trim_of_filled fun c hc => not_isBlank_of_isNamePart (hparts c hc),
    String.ofList_toList]

theorem Block.isEndLine_nameOr (b : Block) {fallback : String}
    (h : isEndLine fallback.toList = false) :
    isEndLine (b.nameOr "NAME" fallback).toList = b.namesEnd := by
  unfold nameOr namesEnd
  cases b.fieldText? "NAME" with
  | none => exact h
  | some s =>
      dsimp only [Option.any_some]
      split
      · rw [String.toList_ofList, isEndLine_trim]
      · rename_i hinvalid
        rw [h, eq_comm, Bool.eq_false_iff]
        intro hend
        have hvalid : isValidName (String.ofList (trim s.toList)) = true := by
          rw [← isValidName_fold, sameName_iff.1 hend]
          decide +kernel
        rw [isValidName, String.toList_ofList] at hvalid
        exact hinvalid hvalid

theorem Block.fieldOr_mem {b : Block} {field : String} {choices : List String}
    (h : b.OneOf field choices) (fallback : String) :
    b.fieldOr field fallback ∈ fallback :: choices := by
  rcases b.fieldOr_eq field fallback with heq | ⟨htext, hblank⟩
  · rw [heq]
    exact List.mem_cons_self
  · exact List.mem_cons_of_mem _ ((h _ htext).resolve_left (by simp [hblank]))

namespace Registries

variable {r : Registries} (hr : r.Coherent) {name : String} (hname : name ∈ r.names)
include hr hname

theorem Coherent.isValidName_of_mem : isValidName name = true :=
  hr.isValidName_of_fold_eq hname rfl

theorem Coherent.isEndLine_name : isEndLine name.toList = false := by
  have husable := hr.usable_name hname
  rw [isEndLine_of_isValidName husable.1, Bool.eq_false_iff]
  intro hend
  have hreserved : isReservedWord name = isReservedWord "end" := by
    rw [isReservedWord, sameName_iff.1 hend, isReservedWord]
  have hfree := hreserved.symm.trans husable.2
  exact absurd hfree (by decide +kernel)

theorem Coherent.settled_name : Settled (name ++ " ").toList := by
  have hfilled := allBlank_of_isValidName (hr.isValidName_of_mem hname)
  rw [String.toList_append]
  exact settled_blank hfilled (hr.isEndLine_name hname)

end Registries

namespace Registries

variable {r : Registries} {name : String}

theorem breedName_mem {b : Breed} (hb : b ∈ r.breeds) : b.plural ∈ r.names ∧ b.singular ∈ r.names :=
  ⟨List.mem_append_left _ (List.mem_flatMap.2 ⟨b, hb, by simp⟩),
    List.mem_append_left _ (List.mem_flatMap.2 ⟨b, hb, by simp⟩)⟩

theorem variableName_mem {v : Variable} (hv : v ∈ r.vars) : v.name ∈ r.names :=
  List.mem_append_right _ (List.mem_map_of_mem hv)

theorem pluralOf_mem (hname : name ∈ r.names) : r.pluralOf name ∈ r.names := by
  rcases r.pluralOf_eq name with h | ⟨b, hb, h⟩
  · rwa [h]
  · rw [h]
    exact (breedName_mem hb).1

theorem singularOf_mem (hname : name ∈ r.names) : r.singularOf name ∈ r.names := by
  rcases r.singularOf_eq name with h | ⟨b, hb, h⟩
  · rwa [h]
  · rw [h]
    exact (breedName_mem hb).2

end Registries

theorem isStriking_of_isDigit {c : Char} (h : isDigit c = true) : isStriking c = true := by
  have hcode : 48 ≤ c.toNat ∧ c.toNat ≤ 57 := by
    rw [isDigit, Bool.and_eq_true, decide_eq_true_eq, decide_eq_true_eq] at h
    exact h
  have hblank := not_isBlank_of_isNamePart (Bool.or_eq_true_iff.2 (.inr h))
  have hlower : c.toLower.toNat = c.toNat := by
    rw [toNat_toLower, if_neg (by omega)]
  have hodd : c.toLower ∉ ['e', 'n', 'd'] := by
    intro hmem
    have hcodes : c.toLower.toNat ∈ [101, 110, 100] := List.mem_map_of_mem (f := Char.toNat) hmem
    simp only [hlower, List.mem_cons, List.not_mem_nil, or_false] at hcodes
    omega
  simp [isStriking, hblank, hodd]

theorem Binary64.any_isStriking_display (v : Binary64) :
    v.display.toList.any isStriking = true := by
  have hdigit : ∀ c, isDigit c = true ∨ c = '.' → isStriking c = true := by
    rintro c (hc | rfl)
    · exact isStriking_of_isDigit hc
    · decide
  have hmagnitude : v.magnitudeText.any isStriking = true := by
    obtain ⟨c, rest, hchars⟩ := List.exists_cons_of_ne_nil v.magnitudeText_ne_nil
    rw [hchars, List.any_cons, hdigit c (v.mem_magnitudeText (by simp [hchars])), Bool.true_or]
  unfold display
  split
  · decide
  · split
    · split <;> decide
    · rw [String.toList_ofList]
      split
      · rw [List.any_cons, hmagnitude, Bool.or_true]
      · exact hmagnitude

/-- The pieces of a line make no line of `end`, whatever is plugged in. -/
inductive Piece.Settles : List Piece → Prop
  | text {word rest} : word.toList.any isStriking = true → Settles (.text word :: rest)
  | name {name rest} : Settled (name ++ " ").toList → Settles (.text name :: .text " " :: rest)
  | value {slot bound word rest} : word.toList.any isStriking = true →
      Settles (.value slot bound :: .text word :: rest)

namespace Standard

open Piece Registries Template

/-- The blocks that define a procedure. -/
def definitionNames : List String := ["procedure_define", "procedure_define_reporter"]

/-- The blocks whose text is the name that their author has typed. -/
def bareNames : List String := ["procedure_call", "procedure_call_reporter", "variable_local"]

/-- The text of the block is a single word, which is `end` when its author has typed that name, or
its first line makes no line of `end`. -/
def Opening (r : Registries) (d : Design) : Prop :=
  ∀ b : Block, d.Admits r b →
    (∃ word, (d.template b r).pieces = [.text word] ∧
      isEndLine word.toList = (decide (d.name ∈ bareNames) && b.namesEnd)) ∨
    d.name ∉ bareNames ∧ Settles (d.template b r).line

theorem opening_word {r : Registries} {d : Design} (hname : d.name ∉ bareNames)
    (h : ∀ b : Block, d.Admits r b →
      ∃ word, (d.template b r).pieces = [.text word] ∧ isEndLine word.toList = false) :
    Opening r d := by
  intro b hb
  obtain ⟨word, hpieces, hword⟩ := h b hb
  exact .inl ⟨word, hpieces, by rw [hword, decide_eq_false hname, Bool.false_and]⟩

theorem opening_striking {r : Registries} {d : Design} (hname : d.name ∉ bareNames)
    (h : ∀ b : Block, d.Admits r b →
      ∃ word, (d.template b r).pieces = [.text word] ∧ word.toList.any isStriking = true) :
    Opening r d := by
  refine opening_word hname fun b hb => ?_
  obtain ⟨word, hpieces, hword⟩ := h b hb
  have hsettled := settled_of_striking hword []
  rw [List.append_nil] at hsettled
  exact ⟨word, hpieces, hsettled⟩

theorem opening_line {r : Registries} {d : Design} (hname : d.name ∉ bareNames)
    (h : ∀ b : Block, d.Admits r b → Settles (d.template b r).line) : Opening r d :=
  fun b hb => .inr ⟨hname, h b hb⟩

theorem striking_append {a : String} (h : a.toList.any isStriking = true) (b : String) :
    (a ++ b).toList.any isStriking = true := by
  rw [String.toList_append, List.any_append, h, Bool.true_or]

theorem opening_literalBlocks (r : Registries) : ∀ d ∈ literalBlocks, Opening r d := by
  simp only [literalBlocks, List.forall_mem_cons]
  refine ⟨opening_striking (by decide) fun b _ => ⟨_, rfl, Binary64.any_isStriking_display _⟩,
    opening_striking (by decide) fun b _ => ⟨_, rfl, ?text⟩,
    opening_striking (by decide) fun b _ => ⟨_, rfl, ?boolean⟩,
    opening_striking (by decide) fun b hb => ⟨_, rfl, ?color⟩,
    opening_striking (by decide) fun b _ => ⟨_, rfl, by decide⟩, List.forall_mem_nil _⟩
  case text =>
    rw [literal, String.toList_ofList, List.cons_append, List.any_cons]
    rfl
  case boolean =>
    generalize ((b.field? "BOOL").bind (·.bool?)).getD false = value
    cases value <;> decide
  case color =>
    have hcolors : ∀ s ∈ "black" :: colors, s.toList.any isStriking = true := by decide
    exact hcolors _ (Block.fieldOr_mem (hb "COLOR" (by decide) colors rfl) "black")

theorem opening_infixed {r : Registries} {d : Design} (hname : d.name ∉ bareNames)
    (h : ∀ b : Block, ∃ symbol precedence, d.template b r = .infixed symbol precedence ∧
      (" " ++ symbol ++ " ").toList.any isStriking = true) : Opening r d := by
  refine opening_line hname fun b _ => ?_
  obtain ⟨symbol, precedence, htemplate, hsymbol⟩ := h b
  rw [htemplate]
  exact .value hsymbol

theorem opening_call {r : Registries} {d : Design} (hname : d.name ∉ bareNames)
    (h : ∀ b : Block, d.Admits r b → ∃ keyword slots, d.template b r = .call keyword slots ∧
      keyword.toList.any isStriking = true) : Opening r d := by
  refine opening_line hname fun b hb => ?_
  obtain ⟨keyword, slots, htemplate, hkeyword⟩ := h b hb
  rw [htemplate]
  exact .text hkeyword

theorem opening_operatorBlocks (r : Registries) : ∀ d ∈ operatorBlocks, Opening r d := by
  have hinfixed : ∀ {name symbol precedence output},
      (Design.operator name symbol precedence output).name ∉ bareNames →
      (" " ++ symbol ++ " ").toList.any isStriking = true →
      Opening r (.operator name symbol precedence output) := fun hname hsymbol =>
    opening_infixed hname fun _ => ⟨_, _, rfl, hsymbol⟩
  have hlogical : ∀ {name symbol}, (logical name symbol).name ∉ bareNames →
      (" " ++ symbol ++ " ").toList.any isStriking = true → Opening r (logical name symbol) :=
    fun hname hsymbol => opening_infixed hname fun _ => ⟨_, _, rfl, hsymbol⟩
  simp only [operatorBlocks, List.forall_mem_cons]
  refine ⟨hinfixed (by decide) (by decide), hinfixed (by decide) (by decide),
    hinfixed (by decide) (by decide), hinfixed (by decide) (by decide),
    hinfixed (by decide) (by decide), hinfixed (by decide) (by decide),
    hlogical (by decide) (by decide), hlogical (by decide) (by decide),
    hlogical (by decide) (by decide),
    opening_infixed (by decide) fun b => ⟨_, _, rfl, ?compare⟩,
    opening_line (by decide) fun _ _ => .text (by decide),
    opening_call (by decide) fun b hb => ⟨_, _, rfl, ?function⟩,
    opening_call (by decide) fun _ _ => ⟨_, _, rfl, by decide⟩,
    opening_call (by decide) fun _ _ => ⟨_, _, rfl, by decide⟩, List.forall_mem_nil _⟩
  case compare =>
    have hsymbols : ∀ op : Operator, (" " ++ op.symbol ++ " ").toList.any isStriking = true := by
      intro op
      cases op <;> decide
    rw [comparison_eq]
    exact hsymbols _
  case function =>
    have hfunctions : ∀ s ∈ "abs" :: mathFunctions, s.toList.any isStriking = true := by decide
    exact hfunctions _ (Block.fieldOr_mem (hb "OP" (by decide) mathFunctions rfl) "abs")

theorem opening_controlBlocks (r : Registries) : ∀ d ∈ controlBlocks, Opening r d := by
  simp only [controlBlocks, List.forall_mem_cons]
  exact ⟨opening_line (by decide) fun _ _ => .text (by decide),
    opening_line (by decide) fun _ _ => .text (by decide),
    opening_line (by decide) fun _ _ => .text (by decide),
    opening_line (by decide) fun _ _ => .text (by decide),
    opening_striking (by decide) fun _ _ => ⟨_, rfl, by decide⟩,
    opening_striking (by decide) fun _ _ => ⟨_, rfl, by decide⟩,
    opening_striking (by decide) fun _ _ => ⟨_, rfl, by decide⟩,
    opening_striking (by decide) fun _ _ => ⟨_, rfl, by decide⟩,
    opening_line (by decide) fun _ _ => .text (by decide),
    opening_line (by decide) fun _ _ => .text (by decide), List.forall_mem_nil _⟩

theorem opening_bare {r : Registries} {d : Design} {fallback : String}
    (hname : d.name ∈ bareNames) (hfallback : isEndLine fallback.toList = false)
    (h : ∀ b : Block, (d.template b r).pieces = [.text (b.nameOr "NAME" fallback)]) :
    Opening r d := by
  intro b _
  refine .inl ⟨_, h b, ?_⟩
  rw [b.isEndLine_nameOr hfallback, decide_eq_true hname, Bool.true_and]

theorem opening_procedureBlocks (r : Registries) : ∀ d ∈ procedureBlocks, Opening r d := by
  simp only [procedureBlocks, List.forall_mem_cons]
  exact ⟨opening_line (by decide) fun _ _ => .text (striking_append (by decide) _),
    opening_line (by decide) fun _ _ => .text (striking_append (by decide) _),
    opening_line (by decide) fun _ _ => .text (by decide),
    opening_bare (by decide) (by decide +kernel) fun _ => rfl,
    opening_bare (by decide) (by decide +kernel) fun _ => rfl, List.forall_mem_nil _⟩

theorem opening_turtleBlocks (r : Registries) : ∀ d ∈ turtleBlocks, Opening r d := by
  simp only [turtleBlocks, List.forall_mem_cons]
  exact ⟨opening_line (by decide) fun _ _ => .text (by decide),
    opening_line (by decide) fun _ _ => .text (by decide),
    opening_line (by decide) fun _ _ => .text (by decide),
    opening_line (by decide) fun _ _ => .text (by decide),
    opening_line (by decide) fun _ _ => .text (by decide),
    opening_line (by decide) fun _ _ => .text (striking_append (striking_append (by decide) _) _),
    List.forall_mem_nil _⟩

theorem opening_agentCommandBlocks (r : Registries) : ∀ d ∈ agentCommandBlocks, Opening r d := by
  have hcreation : ∀ {name verb bareTurtles}, (creation name verb bareTurtles).name ∉ bareNames →
      verb.toList.any isStriking = true → Opening r (creation name verb bareTurtles) := by
    intro name verb bareTurtles hname hverb
    refine opening_line hname fun b _ => .text (striking_append ?_ _)
    split
    · exact hverb
    · exact striking_append (striking_append hverb _) _
  simp only [agentCommandBlocks, List.forall_mem_cons]
  exact ⟨opening_line (by decide) fun _ _ => .text (by decide), hcreation (by decide) (by decide),
    hcreation (by decide) (by decide), hcreation (by decide) (by decide),
    opening_line (by decide) fun _ _ => .text (striking_append (striking_append
      (striking_append (striking_append (by decide) _) _) _) _),
    opening_striking (by decide) fun _ _ => ⟨_, rfl, by decide⟩, List.forall_mem_nil _⟩

section Names

variable {r : Registries} (hr : r.Coherent)
include hr

theorem opening_agentSetBlocks : ∀ d ∈ agentSetBlocks, Opening r d := by
  simp only [agentSetBlocks, List.forall_mem_cons]
  refine ⟨opening_word (by decide) fun b hb => ⟨_, rfl, ?breed⟩,
    opening_line (by decide) fun _ _ => .value (by decide),
    opening_line (by decide) fun _ _ => .text (by decide),
    opening_call (by decide) fun _ _ => ⟨_, _, rfl, by decide⟩,
    opening_call (by decide) fun _ _ => ⟨_, _, rfl, by decide⟩,
    opening_call (by decide) fun _ _ => ⟨_, _, rfl, by decide⟩,
    opening_call (by decide) fun _ _ => ⟨_, _, rfl, by decide⟩,
    opening_line (by decide) fun b hb => .name ?numbered,
    opening_striking (by decide) fun _ _ => ⟨_, rfl, by decide⟩,
    opening_striking (by decide) fun _ _ => ⟨_, rfl, by decide⟩,
    opening_striking (by decide) fun _ _ => ⟨_, rfl, by decide⟩,
    opening_striking (by decide) fun b hb => ⟨_, rfl, ?property⟩, List.forall_mem_nil _⟩
  case breed =>
    have hchoices : ∀ s ∈ "turtles" :: r.agentSets, s ∈ r.names :=
      List.forall_mem_cons.2 ⟨hr.names_empty_subset (by decide),
        List.forall_mem_map.2 fun _ hbreed => (breedName_mem hbreed).1⟩
    have hchoice := Block.fieldOr_mem (hb "BREED" (by decide) r.agentSets rfl) "turtles"
    exact hr.isEndLine_name (pluralOf_mem (hchoices _ hchoice))
  case numbered =>
    have hchoices : ∀ s ∈ "turtle" :: singularTurtleChoices r, s ∈ r.names := by
      have hturtle : "turtle" ∈ r.names := hr.names_empty_subset (by decide)
      refine List.forall_mem_cons.2 ⟨hturtle, List.forall_mem_cons.2 ⟨hturtle, ?_⟩⟩
      refine List.forall_mem_map.2 fun breed hbreed => (breedName_mem ?_).2
      exact (List.mem_filter.1 (List.mem_filter.1 hbreed).1).1
    have hchoice :=
      Block.fieldOr_mem (hb "BREED" (by decide) (singularTurtleChoices r) rfl) "turtle"
    exact hr.settled_name (singularOf_mem (hchoices _ hchoice))
  case property =>
    have hproperties : ∀ s ∈ "who" :: agentProperties, s.toList.any isStriking = true := by decide
    exact hproperties _ (Block.fieldOr_mem (hb "PROP" (by decide) agentProperties rfl) "who")

theorem opening_variableBlocks : ∀ d ∈ variableBlocks, Opening r d := by
  simp only [variableBlocks, List.forall_mem_cons]
  refine ⟨opening_word (by decide) fun b hb => ⟨_, rfl, ?get⟩,
    opening_line (by decide) fun _ _ => .text (striking_append (striking_append (by decide) _) _),
    opening_line (by decide) fun _ _ => .text ?change,
    opening_line (by decide) fun _ _ => .text (striking_append (striking_append (by decide) _) _),
    opening_bare (by decide) (by decide +kernel) fun _ => rfl, List.forall_mem_nil _⟩
  case get =>
    rcases r.spellingOf_eq (b.fieldOr "VAR" "0") with hsame | ⟨v, hv, hname⟩
    · rw [hsame]
      have hchoices : ∀ s ∈ "0" :: variableChoices r, isEndLine s.toList = false := by
        refine List.forall_mem_cons.2 ⟨by decide +kernel, List.forall_mem_map.2 fun v hv => ?_⟩
        exact hr.isEndLine_name (variableName_mem hv)
      exact hchoices _ (Block.fieldOr_mem (hb "VAR" (by decide) (variableChoices r) rfl) "0")
    · rw [hname]
      exact hr.isEndLine_name (variableName_mem hv)
  case change =>
    refine striking_append (striking_append (striking_append (striking_append ?_ _) _) _) _
    decide

theorem opening_designs : ∀ d ∈ designs, Opening r d := by
  simp only [designs, List.forall_mem_append]
  exact ⟨⟨⟨⟨⟨⟨⟨opening_literalBlocks r, opening_operatorBlocks r⟩, opening_agentSetBlocks hr⟩,
    opening_variableBlocks hr⟩, opening_controlBlocks r⟩, opening_procedureBlocks r⟩,
    opening_agentCommandBlocks r⟩, opening_turtleBlocks r⟩

end Names

/-- The chains of a block end as those of a definition when the block is one. -/
theorem exists_ending_iff : ∀ d ∈ designs, ∃ ending : Ending,
    (∀ b r, (d.template b r).tail = ending.pieces) ∧
      (ending = .definition ↔ d.name ∈ definitionNames) := by
  simp only [designs, literalBlocks, operatorBlocks, agentSetBlocks, variableBlocks, controlBlocks,
    procedureBlocks, agentCommandBlocks, turtleBlocks, List.forall_mem_append, List.forall_mem_cons]
  repeat' apply And.intro
  all_goals first
    | exact List.forall_mem_nil _
    | exact ⟨.plain, fun _ _ => rfl, by decide⟩
    | exact ⟨.loop, fun _ _ => rfl, by decide⟩
    | exact ⟨.branches, fun _ _ => rfl, by decide⟩
    | exact ⟨.optional, fun _ _ => rfl, by decide⟩
    | exact ⟨.definition, fun _ _ => rfl, by decide⟩

end Standard

end AgentBlocks
