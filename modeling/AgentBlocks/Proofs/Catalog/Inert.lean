import AgentBlocks.Proofs.Catalog.Framing
import AgentBlocks.Proofs.Text.Skeleton

/-!
Standard blocks with inert fields. Where a field with choices stands in the program as it is, an
author may have put any text into it. As long as that text has no line feed, no square bracket and
no open literal, the pieces of the block have the same skeletons as with any other such fields.
-/
namespace AgentBlocks

open Text

/-- Of the fields whose text stands in the program as it is, those that offer choices are absent,
blank or inert. -/
def Block.InertFields (b : Block) (c : Catalog) (r : Registries) : Prop :=
  ∀ field ∈ verbatimFields b.blockType, (c.fieldOptions? r b.blockType field).isSome = true →
    ∀ s, b.fieldText? field = some s → allBlank s = true ∨ Inert s

/-- The same of the fields of a design. -/
def Design.InertIn (d : Design) (r : Registries) (b : Block) : Prop :=
  ∀ field ∈ verbatimFields d.name, (d.choices? r field).isSome = true →
    ∀ s, b.fieldText? field = some s → allBlank s = true ∨ Inert s

theorem Block.InertFields.inertIn {b : Block} {r : Registries} (h : b.InertFields .standard r)
    {d : Design} (hd : d ∈ Standard.designs) (hname : d.name = b.blockType) : d.InertIn r b := by
  intro field hfield hchoices
  rw [← Standard.fieldOptions?_standard hd] at hchoices
  exact h field (hname ▸ hfield) (hname ▸ hchoices)

/-- Pieces with one skeleton: alike texts, the same slot, or the same chain in the same form. -/
inductive Piece.Alike : Piece → Piece → Prop
  | text {word word'} : Text.Alike word word' → Alike (.text word) (.text word')
  | value (slot bound bound') : Alike (.value slot bound) (.value slot bound')
  | body (slot form) : Alike (.body slot form) (.body slot form)

theorem Piece.Alike.ne_empty {piece piece' : Piece} (h : piece.Alike piece') :
    (∀ word, piece = .text word → word ≠ "") ∧ ∀ word, piece' = .text word → word ≠ "" := by
  cases h with
  | text halike =>
      constructor
      · rintro word ⟨⟩
        exact halike.left
      · rintro word ⟨⟩
        exact halike.right
  | value slot bound bound' => exact ⟨nofun, nofun⟩
  | body slot form => exact ⟨nofun, nofun⟩

/-- The text of the piece is fixed text with closed literals. -/
def Piece.isFixed : Piece → Bool
  | .text s => closesLiterals s
  | .value _ _ | .body _ _ => true

theorem Piece.alike_self {piece : Piece} (h : piece.isFixed = true) : piece.Alike piece := by
  cases piece with
  | text s => exact .text (Text.alike_self h)
  | value slot bound => exact .value slot bound bound
  | body slot form => exact .body slot form

namespace BodyForm

variable {body body' : String} {ms : List Char}

theorem sketch_inBrackets (h : Sketch body ms) (hne : body ≠ "") :
    Sketch (inBrackets body) (['[', '\n'] ++ ms ++ ['\n', ']']) := by
  have hopen : Sketch ("[\n" ++ body) (['[', '\n'] ++ ms) := .prepend rfl h hne
  have hclose : Sketch "\n]" ['\n', ']'] := ⟨rfl, by decide⟩
  rw [inBrackets, if_neg (by simpa using hne)]
  exact hopen.append hclose

theorem alike_text (form : BodyForm) (h : Text.Alike body body') :
    Text.Alike (form.text body) (form.text body') := by
  obtain ⟨ms, hbody, hbody'⟩ := h.sketch
  have hempty : ¬body.isEmpty = true ∧ ¬body'.isEmpty = true := by
    simpa using ⟨h.left, h.right⟩
  have hblank : Sketch " " [] := ⟨rfl, by decide⟩
  have hsketch : ∃ ns, Sketch (form.text body) ns ∧ Sketch (form.text body') ns := by
    cases form with
    | bracketed =>
        exact ⟨_, sketch_inBrackets hbody h.left, sketch_inBrackets hbody' h.right⟩
    | optional =>
        rw [text, text, if_neg hempty.1, if_neg hempty.2]
        exact ⟨_, hblank.append (sketch_inBrackets hbody h.left),
          hblank.append (sketch_inBrackets hbody' h.right)⟩
    | ownLines =>
        rw [text, text, if_neg hempty.1, if_neg hempty.2]
        exact ⟨['\n'] ++ ms, .prepend rfl hbody h.left, .prepend rfl hbody' h.right⟩
    | plain => exact ⟨ms, hbody, hbody'⟩
  have hne : ∀ {body : String}, body ≠ "" → form.text body ≠ "" := by
    intro body hne
    cases form <;> simp [text, inBrackets, hne]
  exact ⟨hne h.left, hne h.right, hsketch⟩

theorem exists_sketch_empty (form : BodyForm) : ∃ ms, Sketch (form.text "") ms := by
  cases form with
  | bracketed => exact ⟨['[', ']'], rfl, by decide⟩
  | optional | ownLines | plain => exact ⟨[], Sketch.empty⟩

end BodyForm

section Pieces

variable {word word' : String} {rest : List Piece}

theorem alike_fixed (h : rest.all Piece.isFixed = true) : List.Forall₂ Piece.Alike rest rest :=
  List.forall₂_same.2 fun piece hpiece => piece.alike_self (List.all_eq_true.1 h piece hpiece)

theorem alike_word (hword : Plain word) (hword' : Plain word')
    (hrest : rest.all Piece.isFixed = true) :
    List.Forall₂ Piece.Alike (.text word :: rest) (.text word' :: rest) :=
  .cons (.text (hword.alike hword')) (alike_fixed hrest)

end Pieces

theorem Block.plain_fieldOr {b : Block} {name fallback : String}
    (hinert : ∀ s, b.fieldText? name = some s → allBlank s = true ∨ Inert s)
    (hfallback : Plain fallback) : Plain (b.fieldOr name fallback) := by
  rcases b.fieldOr_eq name fallback with h | ⟨h, hblank⟩
  · rwa [h]
  · refine ⟨fun hempty => ?_, (hinert _ h).resolve_left (by simp [hblank])⟩
    rw [hempty] at hblank
    cases hblank

namespace Registries

variable {r : Registries} (hr : r.Coherent) {name : String} (hname : Plain name)
include hr hname

theorem Coherent.plain_pluralOf : Plain (r.pluralOf name) := by
  rcases r.pluralOf_eq name with h | ⟨b, hb, h⟩
  · rwa [h]
  · rw [h]
    exact (hr.lexeme_breed hb).1.plain

theorem Coherent.plain_singularOf : Plain (r.singularOf name) := by
  rcases r.singularOf_eq name with h | ⟨b, hb, h⟩
  · rwa [h]
  · rw [h]
    exact (hr.lexeme_breed hb).2.plain

theorem Coherent.plain_spellingOf : Plain (r.spellingOf name) := by
  rcases r.spellingOf_eq name with h | ⟨v, hv, h⟩
  · rwa [h]
  · rw [h]
    exact (hr.lexeme_variable hv).plain

end Registries

namespace Standard

/-- With inert fields the pieces of the design have one skeleton. -/
def KeepsSkeleton (r : Registries) (d : Design) : Prop :=
  ∀ b b', d.InertIn r b → d.InertIn r b' →
    List.Forall₂ Piece.Alike (d.template b r).pieces (d.template b' r).pieces

variable {r : Registries} {d : Design}

/-- The text of the design does not depend on fields. -/
theorem KeepsSkeleton.fixed {name : String} {kind : ResultKind} {output : Option OutputType}
    {fields : List Field} {defaults : List (String × String)} {t : Template}
    (h : t.pieces.all Piece.isFixed = true) :
    KeepsSkeleton r ⟨name, kind, output, fields, defaults, fun _ _ => t⟩ :=
  fun _ _ _ _ => alike_fixed h

/-- Only the first word of the design depends on fields. -/
theorem KeepsSkeleton.word {word : Block → String} {rest : List Piece}
    (h : ∀ b, (d.template b r).pieces = .text (word b) :: rest)
    (hword : ∀ b, d.InertIn r b → Plain (word b)) (hrest : rest.all Piece.isFixed = true) :
    KeepsSkeleton r d := by
  intro b b' hb hb'
  rw [h, h]
  exact alike_word (hword b hb) (hword b' hb') hrest

theorem keepsSkeleton_literalBlocks (r : Registries) : ∀ d ∈ literalBlocks, KeepsSkeleton r d := by
  simp only [literalBlocks, List.forall_mem_cons]
  refine ⟨?number, ?text, ?boolean, ?color, .fixed rfl,
    List.forall_mem_nil _⟩
  case number =>
    exact .word (fun _ => rfl) (fun _ _ => (Binary64.lexeme_display _).plain) rfl
  case text => exact .word (fun _ => rfl) (fun _ _ => (Lexeme.literal _).plain) rfl
  case boolean =>
    refine .word (fun _ => rfl) (fun b _ => ?_) rfl
    generalize ((b.field? "BOOL").bind (·.bool?)).getD false = value
    cases value <;> decide
  case color =>
    exact .word (fun _ => rfl)
      (fun b hb => b.plain_fieldOr (hb "COLOR" (by decide) rfl) (by decide)) rfl

theorem keepsSkeleton_operatorBlocks (r : Registries) :
    ∀ d ∈ operatorBlocks, KeepsSkeleton r d := by
  simp only [operatorBlocks, List.forall_mem_cons]
  refine ⟨.fixed rfl, .fixed rfl, .fixed rfl, .fixed rfl, .fixed rfl, .fixed rfl, .fixed rfl,
    .fixed rfl, .fixed rfl, ?compare, .fixed rfl, ?function, .fixed rfl, .fixed rfl,
    List.forall_mem_nil _⟩
  case compare =>
    intro b b' _ _
    have hsymbol : ∀ op : Operator, Plain (" " ++ op.symbol ++ " ") := by
      intro op
      cases op <;> decide
    have hcompare : ∀ code code', List.Forall₂ Piece.Alike
        (Template.infixed (comparison code).1 (comparison code).2).pieces
        (Template.infixed (comparison code').1 (comparison code').2).pieces := by
      intro code code'
      rw [comparison_eq, comparison_eq]
      exact .cons (.value _ _ _) (.cons (.text ((hsymbol _).alike (hsymbol _)))
        (.cons (.value _ _ _) .nil))
    exact hcompare _ _
  case function =>
    exact .word (fun _ => rfl)
      (fun b hb => b.plain_fieldOr (hb "OP" (by decide) rfl) (by decide)) rfl

theorem keepsSkeleton_controlBlocks (r : Registries) : ∀ d ∈ controlBlocks, KeepsSkeleton r d := by
  simp only [controlBlocks, List.forall_mem_cons]
  exact ⟨.fixed rfl, .fixed rfl, .fixed rfl, .fixed rfl, .fixed rfl, .fixed rfl, .fixed rfl,
    .fixed rfl, .fixed rfl, .fixed rfl, List.forall_mem_nil _⟩

theorem keepsSkeleton_procedureBlocks (r : Registries) :
    ∀ d ∈ procedureBlocks, KeepsSkeleton r d := by
  have hname : ∀ b : Block, ∀ fallback, Lexeme fallback → Plain (b.nameOr "NAME" fallback) :=
    fun b _ h => (b.lexeme_nameOr "NAME" h).plain
  have hsetup : Lexeme "setup" := lexeme_of_isValidName (by decide)
  have hto : Plain ("to" ++ " ") ∧ Plain ("to-report" ++ " ") := by decide
  simp only [procedureBlocks, List.forall_mem_cons]
  refine ⟨?define, ?reporter, .fixed rfl, ?call, ?value, List.forall_mem_nil _⟩
  case define =>
    exact .word (fun _ => rfl) (fun b _ => hto.1.append (hname b "setup" hsetup)) rfl
  case reporter =>
    exact .word (fun _ => rfl) (fun b _ => hto.2.append (hname b "setup" hsetup)) rfl
  case call => exact .word (fun _ => rfl) (fun b _ => hname b "setup" hsetup) rfl
  case value =>
    exact .word (fun _ => rfl) (fun b _ => hname b "0" (.word (by decide) (by decide))) rfl

theorem keepsSkeleton_turtleBlocks (r : Registries) : ∀ d ∈ turtleBlocks, KeepsSkeleton r d := by
  simp only [turtleBlocks, List.forall_mem_cons]
  refine ⟨.fixed rfl, .fixed rfl, .fixed rfl, .fixed rfl, .fixed rfl, ?property,
    List.forall_mem_nil _⟩
  case property =>
    refine .word (fun _ => rfl) (fun b hb => ?_) rfl
    have hproperty : Plain (b.fieldOr "PROP" "color") :=
      b.plain_fieldOr (hb "PROP" (by decide) rfl) (by decide)
    have hset : Plain "set " := by decide
    exact (hset.append hproperty).append (by decide)

section Names

variable {r : Registries} (hr : r.Coherent)
include hr

theorem keepsSkeleton_agentSetBlocks : ∀ d ∈ agentSetBlocks, KeepsSkeleton r d := by
  simp only [agentSetBlocks, List.forall_mem_cons]
  refine ⟨?breed, .fixed rfl, .fixed rfl, .fixed rfl, .fixed rfl, .fixed rfl, .fixed rfl,
    ?numbered, .fixed rfl, .fixed rfl, .fixed rfl, ?property, List.forall_mem_nil _⟩
  case breed =>
    exact .word (fun _ => rfl) (fun b hb =>
      hr.plain_pluralOf (b.plain_fieldOr (hb "BREED" (by decide) rfl) (by decide))) rfl
  case numbered =>
    exact .word (fun _ => rfl) (fun b hb =>
      hr.plain_singularOf (b.plain_fieldOr (hb "BREED" (by decide) rfl) (by decide))) rfl
  case property =>
    exact .word (fun _ => rfl)
      (fun b hb => b.plain_fieldOr (hb "PROP" (by decide) rfl) (by decide)) rfl

theorem keepsSkeleton_variableBlocks : ∀ d ∈ variableBlocks, KeepsSkeleton r d := by
  have hvar : ∀ b : Block, ∀ fallback : String,
      (∀ s, b.fieldText? "VAR" = some s → allBlank s = true ∨ Inert s) → Plain fallback →
        Plain (r.spellingOf (b.fieldOr "VAR" fallback)) :=
    fun b fallback hb h => hr.plain_spellingOf (b.plain_fieldOr hb h)
  have hname : ∀ b : Block, Plain (b.nameOr "NAME" "temp") :=
    fun b => (b.lexeme_nameOr "NAME" (lexeme_of_isValidName (by decide))).plain
  have hset : Plain "set " := by decide
  have hlet : Plain "let " := by decide
  have hblank : Plain " " := by decide
  have hplus : Plain " + " := by decide
  simp only [variableBlocks, List.forall_mem_cons]
  refine ⟨?get, ?set, ?change, ?declare, ?read, List.forall_mem_nil _⟩
  case get =>
    exact .word (fun _ => rfl) (fun b hb => hvar b "0" (hb "VAR" (by decide) rfl) (by decide)) rfl
  case set =>
    refine .word (fun _ => rfl) (fun b hb => ?_) rfl
    have hname := hvar b "x" (hb "VAR" (by decide) rfl) (by decide)
    exact (hset.append hname).append hblank
  case change =>
    refine .word (fun _ => rfl) (fun b hb => ?_) rfl
    have hname := hvar b "x" (hb "VAR" (by decide) rfl) (by decide)
    exact (((hset.append hname).append hblank).append hname).append hplus
  case declare =>
    exact .word (fun _ => rfl) (fun b _ => (hlet.append (hname b)).append hblank) rfl
  case read => exact .word (fun _ => rfl) (fun b _ => hname b) rfl

theorem keepsSkeleton_creation {name verb : String} (bareTurtles : Bool) (hverb : Plain verb)
    (hname : name ≠ "math_function") : KeepsSkeleton r (creation name verb bareTurtles) := by
  refine .word (fun _ => rfl) (fun b hb => ?_) rfl
  have hverbatim : "BREED" ∈ verbatimFields (creation name verb bareTurtles).name := by
    unfold verbatimFields
    rw [if_neg (show (creation name verb bareTurtles).name ≠ _ from hname)]
    decide
  have hbreed : Plain (r.pluralOf (b.fieldOr "BREED" "turtles")) :=
    hr.plain_pluralOf (b.plain_fieldOr (hb "BREED" hverbatim rfl) (by decide))
  have hdash : Plain "-" := by decide
  refine Plain.append ?_ (by decide)
  split
  · exact hverb
  · exact (hverb.append hdash).append hbreed

theorem keepsSkeleton_agentCommandBlocks : ∀ d ∈ agentCommandBlocks, KeepsSkeleton r d := by
  simp only [agentCommandBlocks, List.forall_mem_cons]
  refine ⟨.fixed rfl, keepsSkeleton_creation hr false (by decide) (by decide),
    keepsSkeleton_creation hr true (by decide) (by decide),
    keepsSkeleton_creation hr true (by decide) (by decide), ?link, .fixed rfl,
    List.forall_mem_nil _⟩
  case link =>
    refine .word (fun _ => rfl) (fun b hb => ?_) rfl
    have hbreed : Plain (r.singularOf (b.fieldOr "BREED" "link")) :=
      hr.plain_singularOf (b.plain_fieldOr (hb "BREED" (by decide) rfl) (by decide))
    have hdirection := (lexeme_linkDirection r (r.singularOf (b.fieldOr "BREED" "link"))
      (b.fieldOr "DIRECTION" "with")).plain
    have hcreate : Plain "create-" := by decide
    have hdash : Plain "-" := by decide
    exact (((hcreate.append hbreed).append hdash).append hdirection).append (by decide)

theorem keepsSkeleton_designs : ∀ d ∈ designs, KeepsSkeleton r d := by
  simp only [designs, List.forall_mem_append]
  exact ⟨⟨⟨⟨⟨⟨⟨keepsSkeleton_literalBlocks r, keepsSkeleton_operatorBlocks r⟩,
    keepsSkeleton_agentSetBlocks hr⟩, keepsSkeleton_variableBlocks hr⟩,
    keepsSkeleton_controlBlocks r⟩, keepsSkeleton_procedureBlocks r⟩,
    keepsSkeleton_agentCommandBlocks hr⟩, keepsSkeleton_turtleBlocks r⟩

end Names

/-- The text of a standard block does not begin with a chain. -/
theorem leads_designs : ∀ d ∈ designs, ∀ b r, ∃ piece rest,
    (d.template b r).pieces = piece :: rest ∧ piece.isBody = false := by
  simp only [designs, literalBlocks, operatorBlocks, agentSetBlocks, variableBlocks, controlBlocks,
    procedureBlocks, agentCommandBlocks, turtleBlocks, List.forall_mem_append, List.forall_mem_cons]
  repeat' apply And.intro
  all_goals first | exact fun _ _ => ⟨_, _, rfl, rfl⟩ | exact List.forall_mem_nil _

end Standard

end AgentBlocks
