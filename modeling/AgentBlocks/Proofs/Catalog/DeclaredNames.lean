import AgentBlocks.Proofs.Catalog.Wording
import AgentBlocks.Proofs.Registry.Addressing

/-!
Blocks that name a breed or a variable. The name is written as the registries declare it, however
the field of the block spells it.
-/
namespace AgentBlocks

open Text

/-- How blocks of a type name a breed: by its plural or by its singular, and the template for that
name, for the kind of the breed and for the direction that the block asks for. -/
structure BreedUse where
  type : String
  name : Breed → String
  template : String → BreedKind → String → Template

/-- How blocks of a type name a variable. -/
structure VariableUse where
  type : String
  template : String → Template

namespace Standard

/-- A command that makes agents. -/
def creating (keyword : String) : Template :=
  .statement [.text (keyword ++ " "), .value "COUNT" (.upTo .functionCall), .body "DO" .optional]

/-- The verb with the breed; for turtles it stands alone. -/
def bareForTurtles (verb plural : String) : String :=
  if plural = "turtles" then verb else verb ++ "-" ++ plural

/-- Links of a directed breed go to or from their other end, all others are linked with it. -/
def directionFor (kind : BreedKind) (requested : String) : String :=
  if kind = .directedLink then if requested = "from" then "from" else "to" else "with"

def linking (singular direction : String) : Template :=
  .statement [.text ("create-" ++ singular ++ "-" ++ direction ++ " "),
    .value "TARGET" (.upTo .functionCall), .body "DO" .optional]

def breedUses : List BreedUse :=
  [⟨"agentset_breed", (·.plural), fun plural _ _ => .word plural⟩,
    ⟨"agent_create", (·.plural), fun plural _ _ => creating ("create-" ++ plural)⟩,
    ⟨"agent_sprout", (·.plural), fun plural _ _ => creating (bareForTurtles "sprout" plural)⟩,
    ⟨"agent_hatch", (·.plural), fun plural _ _ => creating (bareForTurtles "hatch" plural)⟩,
    ⟨"agent_numbered", (·.singular), fun singular _ _ => .call singular ["WHO"]⟩,
    ⟨"agent_create_link", (·.singular), fun singular kind requested =>
      linking singular (directionFor kind requested)⟩]

def variableUses : List VariableUse :=
  [⟨"variable_get", .word⟩,
    ⟨"variable_set", fun name =>
      .statement [.text ("set " ++ name ++ " "), .value "VALUE" (.upTo .none)]⟩,
    ⟨"variable_change", fun name => .statement
      [.text ("set " ++ name ++ " " ++ name ++ " + "), .value "DELTA" (.below .additive)]⟩]

end Standard

/-- What a rule comes to when each slot that it asks for has the given text. -/
def Rule.answered (given : String → String) : Rule → Except GenerateError Phrase
  | .done result => result
  | .value slot _ next => (next (.ok (given slot))).answered given
  | .statements slot next => (next (.ok (given slot))).answered given

/-- The text of a piece between the others: fixed words, or the text that its slot is given. -/
def Piece.spelled (given : String → String) : Piece → String
  | .text words => words
  | .value slot _ => given slot
  | .body slot form => form.text (given slot)

/-- The phrase in which the pieces stand one after the other. -/
def Template.phrase (t : Template) (given : String → String) : Phrase :=
  match t.precedence with
  | some precedence => .value (String.join (t.pieces.map (·.spelled given))) precedence
  | none => .statement (String.join (t.pieces.map (·.spelled given)))

theorem Template.answered_assemble (t : Template) (given : String → String) (pieces : List Piece)
    (code : String) : (t.assemble pieces code).answered given =
      .ok (t.result (code ++ String.join (pieces.map (·.spelled given)))) := by
  induction pieces generalizing code with
  | nil => simp [assemble, Rule.answered]
  | cons piece rest ih =>
      rw [List.map_cons, String.join_cons, ← String.append_assoc]
      cases piece with
      | text words => exact ih _
      | value slot bound => exact ih _
      | body slot form => exact ih _

theorem Template.answered_rule (t : Template) (given : String → String) :
    t.rule.answered given = .ok (t.phrase given) := by
  rw [rule, answered_assemble, String.empty_append]
  refine congrArg Except.ok ?_
  unfold result phrase
  cases t.precedence with
  | none => rfl
  | some precedence => rfl

/-- The rule of the block is that of the template: whatever text the slots have, it comes to the
pieces of the template, one after the other. -/
def Block.WrittenAs (b : Block) (r : Registries) (t : Template) : Prop :=
  ∃ type, Catalog.standard.type? b.blockType = some type ∧ type.rule b r = t.rule ∧
    ∀ given, (type.rule b r).answered given = .ok (t.phrase given)

theorem Block.writtenAs_of_template? {b : Block} {r : Registries} {t : Template}
    (h : Standard.template? b.blockType b r = some t) : b.WrittenAs r t := by
  obtain ⟨d, hfind, rfl⟩ := Option.map_eq_some_iff.1 h
  refine ⟨d.blockType, ?_, rfl, (d.template b r).answered_rule⟩
  rw [Standard.type?_standard, hfind, Option.map_some]

namespace Registries

/-- Names of breeds and variables are written in one spelling: in the declarations, by blocks that
name them in any spelling, and by blocks that name them as an offered choice does. -/
structure WritesDeclaredNames (r : Registries) : Prop where
  declares : ∃ lines, Declaration.read? ("\n\n".intercalate r.declarations) = some lines ∧
    (∀ breed ∈ r.customBreeds, .breed breed.kind breed.plural breed.singular ∈ lines) ∧
    (∀ v ∈ r.vars, Declaration.holder v.scope = none →
      ∃ names, .globals names ∈ lines ∧ v.name ∈ names) ∧
    ∀ v ∈ r.vars, ∀ owner, Declaration.holder v.scope = some owner →
      ∃ names, .own owner names ∈ lines ∧ v.name ∈ names
  writesBreed : ∀ use ∈ Standard.breedUses, ∀ breed ∈ r.breeds, ∀ b : Block, ∀ text,
    b.blockType = use.type → b.fieldText? "BREED" = some text → breed.answersTo text = true →
      b.WrittenAs r (use.template (use.name breed) breed.kind (b.fieldOr "DIRECTION" "with"))
  writesVariable : ∀ use ∈ Standard.variableUses, ∀ v ∈ r.vars, ∀ b : Block, ∀ text,
    b.blockType = use.type → b.fieldText? "VAR" = some text → sameName v.name text = true →
      b.WrittenAs r (use.template v.name)
  offersBreeds : ∀ use ∈ Standard.breedUses, ∃ choices,
    Catalog.standard.fieldOptions? r use.type "BREED" = some choices ∧
      ∀ choice ∈ choices, ∃ breed ∈ r.breeds, use.name breed = choice ∧ ∀ b : Block,
        b.blockType = use.type → b.fieldText? "BREED" = some choice →
          b.WrittenAs r (use.template choice breed.kind (b.fieldOr "DIRECTION" "with"))
  offersVariables : ∀ use ∈ Standard.variableUses, ∃ choices,
    Catalog.standard.fieldOptions? r use.type "VAR" = some choices ∧
      ∀ choice ∈ choices, ∃ v ∈ r.vars, v.name = choice ∧ ∀ b : Block,
        b.blockType = use.type → b.fieldText? "VAR" = some choice →
          b.WrittenAs r (use.template choice)

end Registries

theorem not_isBlank_of_isNamePart {c : Char} (h : isNamePart c = true) : isBlank c = false := by
  have hword := Scan.isWordChar_of_isNamePart h
  simp only [Scan.isWordChar, Bool.not_eq_true', Bool.or_eq_false_iff] at hword
  exact hword.1.1

theorem allBlank_of_isValidName {s : String} (h : isValidName s = true) : allBlank s = false := by
  unfold isValidName at h
  cases hchars : s.toList with
  | nil =>
      rw [hchars] at h
      cases h
  | cons c rest =>
      rw [hchars, isValidNameChars, Bool.and_eq_true] at h
      have hblank := not_isBlank_of_isNamePart (Bool.or_eq_true_iff.2 (.inl h.1))
      rw [allBlank, hchars, List.all_cons, hblank, Bool.false_and]

theorem Block.fieldOr_of_isValidName {b : Block} {name text : String}
    (h : b.fieldText? name = some text) (hvalid : isValidName text = true) (fallback : String) :
    b.fieldOr name fallback = text := by
  simp [Block.fieldOr, h, allBlank_of_isValidName hvalid]

namespace Registries

theorem answersTo_name (breed : Breed) : ∀ use ∈ Standard.breedUses,
    breed.answersTo (use.name breed) = true := by
  simp [Standard.breedUses, Breed.answersTo]

theorem variableChoices (r : Registries) : ∀ use ∈ Standard.variableUses,
    Catalog.standard.fieldOptions? r use.type "VAR" = some (r.vars.map (·.name)) := by
  simp only [Standard.variableUses, List.forall_mem_cons, Catalog.fieldOptions?,
    Standard.type?_standard]
  exact ⟨rfl, rfl, rfl, nofun⟩

/-- Every breed and every variable stands in a line of the declarations. -/
theorem mem_declared (r : Registries) : (∀ breed ∈ r.customBreeds,
      .breed breed.kind breed.plural breed.singular ∈ r.declared) ∧
    (∀ v ∈ r.vars, Declaration.holder v.scope = none →
      ∃ names, .globals names ∈ r.declared ∧ v.name ∈ names) ∧
    ∀ v ∈ r.vars, ∀ owner, Declaration.holder v.scope = some owner →
      ∃ names, .own owner names ∈ r.declared ∧ v.name ∈ names := by
  simp only [declared, List.mem_append]
  refine ⟨fun breed hbreed => ?_, fun v hv howner => ?_, fun v hv owner howner => ?_⟩
  · exact .inl (.inr (List.mem_map_of_mem hbreed))
  · have hglobal : v.scope = .global := by
      cases hscope : v.scope <;> simp_all [Declaration.holder]
    have hname : v.name ∈ unowned r.vars :=
      List.mem_map_of_mem (List.mem_filter.2 ⟨hv, by simp [hglobal]⟩)
    refine ⟨unowned r.vars, .inl (.inl ?_), hname⟩
    rw [globalLines, if_neg (List.ne_nil_of_mem hname)]
    exact List.mem_singleton_self _
  · refine ⟨ownedBy r.vars owner, .inr (List.mem_map_of_mem ?_), ?_⟩
    · exact mem_variableOwners.2 ⟨v, hv, howner⟩
    · exact List.mem_map_of_mem (List.mem_filter.2 ⟨hv, by simp [howner]⟩)

section Coherent

variable {r : Registries} (hr : r.Coherent)
include hr

theorem Coherent.isValidName_of_fold_eq {name text : String} (hname : name ∈ r.names)
    (h : fold name = fold text) : isValidName text = true := by
  have hvalid : isValidName name = true := (hr.usable_name hname).1
  rwa [← isValidName_fold, ← h, isValidName_fold]

theorem Coherent.isValidName_of_answersTo {breed : Breed} (hbreed : breed ∈ r.breeds)
    {text : String} (h : breed.answersTo text = true) : isValidName text = true := by
  have hnames : ∀ name ∈ [breed.plural, breed.singular], name ∈ r.names := fun name hname =>
    List.mem_append_left _ (List.mem_flatMap.2 ⟨breed, hbreed, hname⟩)
  rcases Bool.or_eq_true_iff.1 h with hsame | hsame
  · exact hr.isValidName_of_fold_eq (hnames _ (by simp)) (sameName_iff.1 hsame)
  · exact hr.isValidName_of_fold_eq (hnames _ (by simp)) (sameName_iff.1 hsame)

theorem Coherent.breedUse {breed : Breed} (hbreed : breed ∈ r.breeds) {b : Block} {text : String}
    (htext : b.fieldText? "BREED" = some text) (h : breed.answersTo text = true) :
    ∀ use ∈ Standard.breedUses, Standard.template? use.type b r =
      some (use.template (use.name breed) breed.kind (b.fieldOr "DIRECTION" "with")) := by
  have hfield := Block.fieldOr_of_isValidName htext (hr.isValidName_of_answersTo hbreed h)
  have hplural : ∀ fallback, r.pluralOf (b.fieldOr "BREED" fallback) = breed.plural := by
    intro fallback
    rw [hfield, pluralOf, hr.findBreed?_eq_some hbreed h]
  have hsingular : ∀ fallback, r.singularOf (b.fieldOr "BREED" fallback) = breed.singular := by
    intro fallback
    rw [hfield, singularOf, hr.findBreed?_eq_some hbreed h]
  have hdirection : ∀ requested, Standard.linkDirection r breed.singular requested =
      Standard.directionFor breed.kind requested := by
    intro requested
    rw [Standard.linkDirection, hr.findBreed?_eq_some hbreed (by simp [Breed.answersTo])]
    rfl
  have hbare : ∀ name verb, (Standard.creation name verb true).template b r =
      Standard.creating (Standard.bareForTurtles verb breed.plural) := by
    intro name verb
    simp [Standard.creation, Design.statement, Design.withField, Design.withDefault, hplural,
      Standard.creating, Standard.bareForTurtles]
  simp only [Standard.breedUses, List.forall_mem_cons]
  refine ⟨?_, ?_, ?_, ?_, ?_, ?_, List.forall_mem_nil _⟩
  · rw [← hplural "turtles"]
    rfl
  · rw [← hplural "turtles"]
    rfl
  · exact congrArg some (hbare "agent_sprout" "sprout")
  · exact congrArg some (hbare "agent_hatch" "hatch")
  · rw [← hsingular "turtle"]
    rfl
  · rw [← hdirection, ← hsingular "link"]
    rfl

theorem Coherent.variableUse {v : Variable} (hv : v ∈ r.vars) {b : Block} {text : String}
    (htext : b.fieldText? "VAR" = some text) (h : sameName v.name text = true) :
    ∀ use ∈ Standard.variableUses,
      Standard.template? use.type b r = some (use.template v.name) := by
  have hvalid := hr.isValidName_of_fold_eq (List.mem_append_right _ (List.mem_map_of_mem hv))
    (sameName_iff.1 h)
  have hname : ∀ fallback, r.spellingOf (b.fieldOr "VAR" fallback) = v.name := by
    intro fallback
    rw [Block.fieldOr_of_isValidName htext hvalid, spellingOf,
      hr.findVariable?_eq_some hv (sameName_iff.1 h)]
  simp only [Standard.variableUses, List.forall_mem_cons]
  refine ⟨?_, ?_, ?_, List.forall_mem_nil _⟩
  · rw [← hname "0"]
    rfl
  · rw [← hname "x"]
    rfl
  · rw [← hname "x"]
    rfl

/-- Every choice for the name of a breed is that name of a breed. -/
theorem Coherent.breedChoices : ∀ use ∈ Standard.breedUses, ∃ choices,
    Catalog.standard.fieldOptions? r use.type "BREED" = some choices ∧
      ∀ choice ∈ choices, ∃ breed ∈ r.breeds, use.name breed = choice := by
  have hlisted : ∀ (name : Breed → String) (p : Breed → Bool), ∀ base ∈ builtinBreeds,
      ∀ choice ∈ name base :: (r.customBreeds.filter p).map name,
        ∃ breed ∈ r.breeds, name breed = choice := by
    intro name p base hbase
    refine List.forall_mem_cons.2 ⟨⟨base, ?_, rfl⟩, List.forall_mem_map.2 fun breed hbreed => ?_⟩
    · rw [hr.builtins]
      exact List.mem_append_left _ hbase
    · exact ⟨breed, (List.mem_filter.1 (List.mem_filter.1 hbreed).1).1, rfl⟩
  simp only [Standard.breedUses, List.forall_mem_cons, Catalog.fieldOptions?,
    Standard.type?_standard]
  refine ⟨⟨r.agentSets, rfl, List.forall_mem_map.2 fun breed hbreed => ⟨breed, hbreed, rfl⟩⟩,
    ⟨_, rfl, hlisted (·.plural) (·.kind == .turtle) _ (.head _)⟩,
    ⟨_, rfl, hlisted (·.plural) (·.kind == .turtle) _ (.head _)⟩,
    ⟨_, rfl, hlisted (·.plural) (·.kind == .turtle) _ (.head _)⟩,
    ⟨_, rfl, hlisted (·.singular) (·.kind == .turtle) _ (.head _)⟩,
    ⟨_, rfl, hlisted (·.singular) (·.kind.isLink) _ (.tail _ (.tail _ (.head _)))⟩, nofun⟩

theorem Coherent.writesDeclaredNames : r.WritesDeclaredNames where
  declares := ⟨r.declared, read?_declarations hr.legible_declared, r.mem_declared⟩
  writesBreed use huse breed hbreed b text htype htext hanswers := by
    refine Block.writtenAs_of_template? ?_
    rw [htype]
    exact hr.breedUse hbreed htext hanswers use huse
  writesVariable use huse v hv b text htype htext hsame := by
    refine Block.writtenAs_of_template? ?_
    rw [htype]
    exact hr.variableUse hv htext hsame use huse
  offersBreeds use huse := by
    obtain ⟨choices, hchoices, hlisted⟩ := hr.breedChoices use huse
    refine ⟨choices, hchoices, fun choice hchoice => ?_⟩
    obtain ⟨breed, hbreed, rfl⟩ := hlisted choice hchoice
    refine ⟨breed, hbreed, rfl, fun b htype htext => Block.writtenAs_of_template? ?_⟩
    rw [htype]
    exact hr.breedUse hbreed htext (answersTo_name breed use huse) use huse
  offersVariables use huse := by
    refine ⟨_, r.variableChoices use huse, List.forall_mem_map.2 fun v hv => ⟨v, hv, rfl, ?_⟩⟩
    refine fun b htype htext => Block.writtenAs_of_template? ?_
    rw [htype]
    exact hr.variableUse hv htext (sameName_refl _) use huse

end Coherent

end Registries

/-- The fields hold the same, but names of breeds and variables may be spelled otherwise. -/
structure Block.Respelled (r : Registries) (b b' : Block) : Prop where
  others : ∀ field, field ≠ "BREED" → field ≠ "VAR" → b'.field? field = b.field? field
  breed : b'.field? "BREED" = b.field? "BREED" ∨ ∃ breed ∈ r.breeds, ∃ text text',
    b.fieldText? "BREED" = some text ∧ b'.fieldText? "BREED" = some text' ∧
      breed.answersTo text = true ∧ breed.answersTo text' = true
  variableName : b'.field? "VAR" = b.field? "VAR" ∨ ∃ v ∈ r.vars, ∃ text text',
    b.fieldText? "VAR" = some text ∧ b'.fieldText? "VAR" = some text' ∧
      sameName v.name text = true ∧ sameName v.name text' = true

theorem Block.respelled_breed {r : Registries} {block : Block} {b : Breed} {text text' : String}
    (hb : b ∈ r.breeds) (h : b.answersTo text = true) (h' : b.answersTo text' = true) :
    (block.withField "BREED" (.text text)).Respelled r (block.withField "BREED" (.text text')) := by
  refine ⟨fun field hbreed _ => ?_, .inr ⟨b, hb, text, text', ?_, ?_, h, h'⟩, .inl ?_⟩
  · simp [field?, withField, Dict.get?_insert, Ne.symm hbreed]
  all_goals simp [fieldText?, field?, withField, Dict.get?_insert, FieldValue.display]

theorem Block.respelled_variable {r : Registries} {block : Block} {v : Variable}
    {text text' : String} (hv : v ∈ r.vars) (h : sameName v.name text = true)
    (h' : sameName v.name text' = true) :
    (block.withField "VAR" (.text text)).Respelled r (block.withField "VAR" (.text text')) := by
  refine ⟨fun field _ hvar => ?_, .inl ?_, .inr ⟨v, hv, text, text', ?_, ?_, h, h'⟩⟩
  · simp [field?, withField, Dict.get?_insert, Ne.symm hvar]
  all_goals simp [fieldText?, field?, withField, Dict.get?_insert, FieldValue.display]

theorem Block.fieldOr_congr {b b' : Block} {name : String} (h : b'.field? name = b.field? name)
    (fallback : String) : b'.fieldOr name fallback = b.fieldOr name fallback := by
  rw [fieldOr, fieldOr, fieldText?, fieldText?, h]

theorem Block.nameOr_congr {b b' : Block} {name : String} (h : b'.field? name = b.field? name)
    (fallback : String) : b'.nameOr name fallback = b.nameOr name fallback := by
  rw [nameOr, nameOr, fieldText?, fieldText?, h]

namespace Registries

variable {r : Registries} (hr : r.Coherent) {b b' : Block} (h : b.Respelled r b')
include hr h

theorem Coherent.findBreed?_respelled (fallback : String) :
    b'.fieldOr "BREED" fallback = b.fieldOr "BREED" fallback ∨ ∃ breed,
      r.findBreed? (b.fieldOr "BREED" fallback) = some breed ∧
      r.findBreed? (b'.fieldOr "BREED" fallback) = some breed := by
  rcases h.breed with hsame | ⟨breed, hbreed, text, text', htext, htext', hanswers, hanswers'⟩
  · exact .inl (Block.fieldOr_congr hsame fallback)
  · refine .inr ⟨breed, ?_, ?_⟩
    · rw [Block.fieldOr_of_isValidName htext (hr.isValidName_of_answersTo hbreed hanswers)]
      exact hr.findBreed?_eq_some hbreed hanswers
    · rw [Block.fieldOr_of_isValidName htext' (hr.isValidName_of_answersTo hbreed hanswers')]
      exact hr.findBreed?_eq_some hbreed hanswers'

theorem Coherent.pluralOf_respelled (fallback : String) :
    r.pluralOf (b'.fieldOr "BREED" fallback) = r.pluralOf (b.fieldOr "BREED" fallback) := by
  rcases hr.findBreed?_respelled h fallback with hsame | ⟨breed, hfound, hfound'⟩
  · rw [hsame]
  · rw [pluralOf, pluralOf, hfound, hfound']

theorem Coherent.singularOf_respelled (fallback : String) :
    r.singularOf (b'.fieldOr "BREED" fallback) = r.singularOf (b.fieldOr "BREED" fallback) := by
  rcases hr.findBreed?_respelled h fallback with hsame | ⟨breed, hfound, hfound'⟩
  · rw [hsame]
  · rw [singularOf, singularOf, hfound, hfound']

theorem Coherent.spellingOf_respelled (fallback : String) :
    r.spellingOf (b'.fieldOr "VAR" fallback) = r.spellingOf (b.fieldOr "VAR" fallback) := by
  rcases h.variableName with hsame | ⟨v, hv, text, text', htext, htext', hnamed, hnamed'⟩
  · rw [Block.fieldOr_congr hsame]
  · have hvalid : ∀ {text}, sameName v.name text = true → isValidName text = true := fun hnamed =>
      hr.isValidName_of_fold_eq (List.mem_append_right _ (List.mem_map_of_mem hv))
        (sameName_iff.1 hnamed)
    rw [Block.fieldOr_of_isValidName htext (hvalid hnamed),
      Block.fieldOr_of_isValidName htext' (hvalid hnamed'), spellingOf, spellingOf,
      hr.findVariable?_eq_some hv (sameName_iff.1 hnamed),
      hr.findVariable?_eq_some hv (sameName_iff.1 hnamed')]

/-- The wording of a standard block depends on what the names in its fields stand for. -/
theorem Coherent.template_respelled : ∀ d ∈ Standard.designs, d.template b' r = d.template b r := by
  have hname := fun fallback =>
    Block.nameOr_congr (h.others "NAME" (by decide) (by decide)) fallback
  have hcolor := fun fallback =>
    Block.fieldOr_congr (h.others "COLOR" (by decide) (by decide)) fallback
  have hproperty := fun fallback =>
    Block.fieldOr_congr (h.others "PROP" (by decide) (by decide)) fallback
  have hoperator := fun fallback =>
    Block.fieldOr_congr (h.others "OP" (by decide) (by decide)) fallback
  have hdirection := fun fallback =>
    Block.fieldOr_congr (h.others "DIRECTION" (by decide) (by decide)) fallback
  have hnumber := h.others "NUM" (by decide) (by decide)
  have htext := h.others "TEXT" (by decide) (by decide)
  have htruth := h.others "BOOL" (by decide) (by decide)
  simp only [Standard.designs, Standard.literalBlocks, Standard.operatorBlocks,
    Standard.agentSetBlocks, Standard.variableBlocks, Standard.controlBlocks,
    Standard.procedureBlocks, Standard.agentCommandBlocks, Standard.turtleBlocks,
    List.forall_mem_append, List.forall_mem_cons]
  repeat' apply And.intro
  all_goals first
    | exact List.forall_mem_nil _
    | rfl
    | simp only [Design.value, Design.statement, Design.withField, Design.withDefault,
        Standard.creation, Standard.definition, Standard.assigned, Block.fieldText?, hname, hcolor,
        hproperty, hoperator, hdirection, hnumber, htext, htruth, hr.pluralOf_respelled h,
        hr.singularOf_respelled h, hr.spellingOf_respelled h]

end Registries

end AgentBlocks
