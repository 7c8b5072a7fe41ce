import AgentBlocks.Proofs.Expression.Vocabulary
import AgentBlocks.Proofs.Json.Numeral
import Mathlib.Data.List.Nodup

/-!
The words of standard blocks. Numbers, names and offered choices are single words, whatever an
author has typed into the other fields.
-/
namespace AgentBlocks

open Text

theorem mem_pointed (digits : List Char) (point : Int) {c : Char}
    (h : c ∈ (pointed digits point).1 ∨ c ∈ (pointed digits point).2) : c ∈ digits ∨ c = '0' := by
  unfold pointed at h
  split at h
  · rcases h with h | h
    · exact .inr (List.mem_singleton.1 h)
    · exact ((List.mem_append.1 h).imp_left List.eq_of_mem_replicate).symm
  · rcases h with h | h
    · exact (List.mem_append.1 h).imp List.mem_of_mem_take List.eq_of_mem_replicate
    · exact .inl (List.mem_of_mem_drop h)

theorem pointed_ne_nil (digits : List Char) (point : Int) : (pointed digits point).1 ≠ [] := by
  unfold pointed
  split
  · exact List.cons_ne_nil _ _
  · rename_i hpoint
    rw [← List.length_pos_iff, List.length_append, List.length_take, List.length_replicate]
    omega

namespace Binary64

theorem isDigit_of_mem_pointed (v : Binary64) {c : Char}
    (h : c ∈ (pointed (v.shortest .up).positional.1 (v.shortest .up).positional.2).1 ∨
      c ∈ (pointed (v.shortest .up).positional.1 (v.shortest .up).positional.2).2) :
    isDigit c = true := by
  rcases mem_pointed _ _ h with hc | rfl
  · exact Numeral.isDigit_of_mem_positional hc
  · decide

theorem mem_magnitudeText {v : Binary64} {c : Char} (h : c ∈ v.magnitudeText) :
    isDigit c = true ∨ c = '.' := by
  have hdigit := v.isDigit_of_mem_pointed (c := c)
  unfold magnitudeText at h
  split at h
  · rw [List.mem_singleton.1 h]
    decide
  · dsimp only at h
    split at h
    · rename_i hpointed
      rw [hpointed] at hdigit
      exact .inl (hdigit (.inl h))
    · rename_i hpointed
      rw [hpointed] at hdigit
      rcases List.mem_append.1 h with h | h
      · exact .inl (hdigit (.inl h))
      · rcases List.mem_cons.1 h with h | h
        · exact .inr h
        · exact .inl (hdigit (.inr h))

theorem magnitudeText_ne_nil (v : Binary64) : v.magnitudeText ≠ [] := by
  unfold magnitudeText
  split
  · exact List.cons_ne_nil _ _
  · have hne := pointed_ne_nil (v.shortest .up).positional.1 (v.shortest .up).positional.2
    dsimp only
    split
    · rename_i hpointed
      rwa [hpointed] at hne
    · exact List.append_ne_nil_of_right_ne_nil _ (List.cons_ne_nil _ _)

theorem lexeme_display (v : Binary64) : Lexeme v.display := by
  have hword : ∀ c ∈ v.magnitudeText, Scan.isWordChar c = true := by
    intro c hc
    rcases mem_magnitudeText hc with hdigit | rfl
    · exact Scan.isWordChar_of_isNamePart (Bool.or_eq_true_iff.2 (.inr hdigit))
    · decide
  unfold display
  split
  · exact .word (by decide) (by decide)
  · split
    · split
      · exact .word (by decide) (by decide)
      · exact .word (by decide) (by decide)
    · split
      · refine .word (by simp) (List.all_eq_true.2 ?_)
        rw [String.toList_ofList]
        exact List.forall_mem_cons.2 ⟨by decide, hword⟩
      · refine .word ?_ (List.all_eq_true.2 ?_)
        · simpa using v.magnitudeText_ne_nil
        · rwa [String.toList_ofList]

end Binary64

namespace Block

variable {b : Block} {name fallback : String}

theorem lexeme_nameOr (b : Block) (name : String) (hfallback : Lexeme fallback) :
    Lexeme (b.nameOr name fallback) := by
  unfold nameOr
  split
  · dsimp only
    split
    · rename_i hvalid
      refine lexeme_of_isValidName ?_
      rwa [isValidName, String.toList_ofList]
    · exact hfallback
  · exact hfallback

theorem fieldOr_eq (b : Block) (name fallback : String) : b.fieldOr name fallback = fallback ∨
    b.fieldText? name = some (b.fieldOr name fallback) ∧
      allBlank (b.fieldOr name fallback) = false := by
  unfold fieldOr
  split
  · rename_i s hs
    split
    · exact .inl rfl
    · rename_i hblank
      exact .inr ⟨hs, by simpa using hblank⟩
  · exact .inl rfl

/-- The text of a field that is absent, blank or one of some choices. -/
theorem lexeme_fieldOr {choices : List String}
    (hchosen : ∀ s, b.fieldText? name = some s → allBlank s = true ∨ s ∈ choices)
    (hchoices : ∀ s ∈ choices, Lexeme s) (hfallback : Lexeme fallback) :
    Lexeme (b.fieldOr name fallback) := by
  rcases b.fieldOr_eq name fallback with h | ⟨h, hblank⟩
  · rwa [h]
  · exact hchoices _ ((hchosen _ h).resolve_left (by simp [hblank]))

end Block

namespace Registries

theorem pluralOf_eq (r : Registries) (name : String) :
    r.pluralOf name = name ∨ ∃ b ∈ r.breeds, r.pluralOf name = b.plural := by
  unfold pluralOf
  split
  · rename_i b hb
    exact .inr ⟨b, List.mem_of_find?_eq_some hb, rfl⟩
  · exact .inl rfl

theorem singularOf_eq (r : Registries) (name : String) :
    r.singularOf name = name ∨ ∃ b ∈ r.breeds, r.singularOf name = b.singular := by
  unfold singularOf
  split
  · rename_i b hb
    exact .inr ⟨b, List.mem_of_find?_eq_some hb, rfl⟩
  · exact .inl rfl

theorem spellingOf_eq (r : Registries) (name : String) :
    r.spellingOf name = name ∨ ∃ v ∈ r.vars, r.spellingOf name = v.name := by
  unfold spellingOf
  split
  · rename_i v hv
    exact .inr ⟨v, List.mem_of_find?_eq_some hv, rfl⟩
  · exact .inl rfl

variable {r : Registries} (hr : r.Coherent)
include hr

theorem Coherent.lexeme_breed {b : Breed} (hb : b ∈ r.breeds) :
    Lexeme b.plural ∧ Lexeme b.singular := by
  rw [hr.builtins, List.mem_append] at hb
  rcases hb with hb | hb
  · have hbuiltin : ∀ b ∈ builtinBreeds,
        isValidName b.plural = true ∧ isValidName b.singular = true := by
      decide
    exact ⟨lexeme_of_isValidName (hbuiltin b hb).1, lexeme_of_isValidName (hbuiltin b hb).2⟩
  · have hdeclared := hr.breeds b hb
    exact ⟨lexeme_of_isValidName hdeclared.plural.1, lexeme_of_isValidName hdeclared.singular.1⟩

theorem Coherent.lexeme_variable {v : Variable} (hv : v ∈ r.vars) : Lexeme v.name :=
  lexeme_of_isValidName (hr.vars v hv).1

variable {name : String} (hname : Lexeme name)
include hname

theorem Coherent.lexeme_pluralOf : Lexeme (r.pluralOf name) := by
  rcases r.pluralOf_eq name with h | ⟨b, hb, h⟩
  · rwa [h]
  · rw [h]
    exact (hr.lexeme_breed hb).1

theorem Coherent.lexeme_singularOf : Lexeme (r.singularOf name) := by
  rcases r.singularOf_eq name with h | ⟨b, hb, h⟩
  · rwa [h]
  · rw [h]
    exact (hr.lexeme_breed hb).2

theorem Coherent.lexeme_spellingOf : Lexeme (r.spellingOf name) := by
  rcases r.spellingOf_eq name with h | ⟨v, hv, h⟩
  · rwa [h]
  · rw [h]
    exact hr.lexeme_variable hv

end Registries

/-- The field is absent, blank or one of the choices. -/
def Block.OneOf (b : Block) (field : String) (choices : List String) : Prop :=
  ∀ s, b.fieldText? field = some s → allBlank s = true ∨ s ∈ choices

/-- The choices that a field of the design offers. -/
def Design.choices? (d : Design) (r : Registries) (field : String) : Option (List String) :=
  (d.fields.find? (·.name == field)).bind (·.options.choices? r)

namespace Standard

theorem find?_designs {d : Design} (hd : d ∈ designs) :
    designs.find? (·.name == d.name) = some d := by
  obtain ⟨e, he⟩ : ∃ e, designs.find? (·.name == d.name) = some e := by
    rw [← Option.isSome_iff_exists, List.find?_isSome]
    exact ⟨d, hd, beq_self_eq_true _⟩
  have hname : e.name = d.name := by simpa using List.find?_some he
  rw [he, List.inj_on_of_nodup_map names_nodup (List.mem_of_find?_eq_some he) hd hname]

theorem fieldOptions?_standard {d : Design} (hd : d ∈ designs) (r : Registries) (field : String) :
    Catalog.standard.fieldOptions? r d.name field = d.choices? r field := by
  have htype : Catalog.standard.type? d.name = some d.blockType := by
    rw [type?_standard, find?_designs hd]
    rfl
  unfold Catalog.fieldOptions?
  rw [htype]
  rfl

end Standard

/-- The fields of blocks of a type whose text stands in the program as it is. -/
def verbatimFields (blockType : String) : List String :=
  if blockType = "math_function" then ["COLOR", "PROP", "VAR", "BREED", "OP"]
  else ["COLOR", "PROP", "VAR", "BREED"]

/-- Of the fields whose text stands in the program as it is, those that offer choices are absent,
blank or one of them. -/
def Block.Chosen (b : Block) (c : Catalog) (r : Registries) : Prop :=
  ∀ field ∈ verbatimFields b.blockType, ∀ choices,
    c.fieldOptions? r b.blockType field = some choices → b.OneOf field choices

theorem Block.chosen_of_unset {b : Block} {c : Catalog} {r : Registries}
    (h : ∀ field ∈ verbatimFields b.blockType, b.fieldText? field = none) : b.Chosen c r := by
  intro field hfield choices _ s hs
  rw [h field hfield] at hs
  cases hs

/-- The same of the fields of a design. -/
def Design.Admits (d : Design) (r : Registries) (b : Block) : Prop :=
  ∀ field ∈ verbatimFields d.name, ∀ choices, d.choices? r field = some choices →
    b.OneOf field choices

theorem Block.Chosen.admits {b : Block} {r : Registries} (h : b.Chosen .standard r) {d : Design}
    (hd : d ∈ Standard.designs) (hname : d.name = b.blockType) : d.Admits r b := by
  intro field hfield choices hchoices
  rw [← Standard.fieldOptions?_standard hd] at hchoices
  exact h field (hname ▸ hfield) choices (hname ▸ hchoices)

namespace Standard

theorem lexeme_of_name {names : List String} (h : ∀ s ∈ names, isValidName s = true) :
    ∀ s ∈ names, Lexeme s := fun s hs => lexeme_of_isValidName (h s hs)

theorem lexeme_colors : ∀ s ∈ colors, Lexeme s := lexeme_of_name (by decide)

theorem lexeme_agentProperties : ∀ s ∈ agentProperties, Lexeme s := by
  have hchars : ∀ s ∈ agentProperties, s ≠ "" ∧ s.toList.all Scan.isWordChar = true := by decide
  exact fun s hs => .word (hchars s hs).1 (hchars s hs).2

theorem lexeme_mathFunctions : ∀ s ∈ mathFunctions, Lexeme s := lexeme_of_name (by decide)

section Choices

variable {r : Registries} (hr : r.Coherent)
include hr

theorem lexeme_agentSets : ∀ s ∈ r.agentSets, Lexeme s :=
  List.forall_mem_map.2 fun _ hb => (hr.lexeme_breed hb).1

theorem lexeme_variableChoices : ∀ s ∈ variableChoices r, Lexeme s :=
  List.forall_mem_map.2 fun _ hv => hr.lexeme_variable hv

theorem lexeme_turtleBreedChoices : ∀ s ∈ turtleBreedChoices r, Lexeme s := by
  refine List.forall_mem_cons.2 ⟨lexeme_of_isValidName (by decide), List.forall_mem_map.2 ?_⟩
  intro b hb
  exact (hr.lexeme_breed (List.mem_filter.1 (List.mem_filter.1 hb).1).1).1

theorem lexeme_singularTurtleChoices : ∀ s ∈ singularTurtleChoices r, Lexeme s := by
  refine List.forall_mem_cons.2 ⟨lexeme_of_isValidName (by decide), List.forall_mem_map.2 ?_⟩
  intro b hb
  exact (hr.lexeme_breed (List.mem_filter.1 (List.mem_filter.1 hb).1).1).2

theorem lexeme_linkBreedChoices : ∀ s ∈ linkBreedChoices r, Lexeme s := by
  refine List.forall_mem_cons.2 ⟨lexeme_of_isValidName (by decide), List.forall_mem_map.2 ?_⟩
  intro b hb
  exact (hr.lexeme_breed (List.mem_filter.1 (List.mem_filter.1 hb).1).1).2

end Choices

theorem lexeme_linkDirection (r : Registries) (breed requested : String) :
    Lexeme (linkDirection r breed requested) := by
  have hdirections : ∀ s ∈ linkDirections, Lexeme s := lexeme_of_name (by decide)
  refine hdirections _ ?_
  unfold linkDirection
  repeat' split
  all_goals first | decide | (rename_i h; rcases h with rfl | rfl <;> decide)

end Standard

end AgentBlocks
