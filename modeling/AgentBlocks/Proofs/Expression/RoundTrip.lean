import AgentBlocks.Proofs.Catalog.Nodes
import AgentBlocks.Proofs.Expression.Spelling
import AgentBlocks.Proofs.Expression.Vocabulary
import AgentBlocks.Proofs.Walk.Totality

/-!
The round trip of expressions: a tree of value blocks is rendered as a text from which the grammar
derives that tree and no other one.
-/
namespace AgentBlocks

/-- What a value slot holds: a block, or the text of the slot when it is left empty. -/
inductive Operand where
  | block (id : String)
  | text (token : String)

def BlockType.operand (type : BlockType) (b : Block) (slot : String) : Operand :=
  match b.inputs.get? slot with
  | some child => .block child
  | none => .text (type.defaultFor slot)

/-- The text of a piece when the slots hold expressions. -/
def Piece.filled (operand : String → Expression) : Piece → String
  | .text s => s
  | .value slot bound => bound.enclose (operand slot).text (operand slot).precedence
  | .body _ _ => ""

theorem Node.text_build (n : Node) (operand : String → Expression) :
    n.template.pieces.foldl (fun code piece => code ++ piece.filled operand) "" =
      (n.build operand).text := by
  cases n <;> simp [Node.template, Node.build, Template.word, Template.infixed, Template.call,
    Template.expression, Piece.filled, Expression.text, String.append_assoc]

theorem Node.result_build (n : Node) (operand : String → Expression) (code : String) :
    n.template.result code = .value code (n.build operand).precedence := by
  cases n <;> rfl

namespace Surroundings

open Walk Standard

/-- The tree of blocks in a slot is an expression: a block is a node of it, with what its own slots
hold as operands, and a slot that is left empty is a leaf. -/
inductive Expresses (s : Surroundings) : Operand → Expression → Prop
  | text (token : String) : Expresses s (.text token) (.leaf token)
  | block {id b type n} {operand : String → Expression} : s.lookup id = .ok (b, type) →
      IsNode b s.registries n →
      (∀ slot ∈ n.slots, Expresses s (type.operand b slot) (operand slot)) →
      Expresses s (.block id) (n.build operand)

variable {s : Surroundings} {id : String} {e : Expression}

theorem Expresses.exists_lookup (h : s.Expresses (.block id) e) :
    ∃ b type, s.lookup id = .ok (b, type) := by
  cases h with
  | block hlookup _ _ => exact ⟨_, _, hlookup⟩

theorem Expresses.eq_leaf {token : String} (h : s.Expresses (.text token) e) :
    e = .leaf token := by
  cases h
  rfl

theorem Expresses.of_block (hs : s.catalog = .standard) {b : Block} {d : Design} {n : Node}
    {operand : String → Expression} (hblock : s.workspace.block? id = some b)
    (hdesign : designs.find? (·.name == b.blockType) = some d) (hnode : IsNode b s.registries n)
    (hoperands : ∀ slot ∈ n.slots, s.Expresses (d.blockType.operand b slot) (operand slot)) :
    s.Expresses (.block id) (n.build operand) := by
  have htype : s.catalog.type? b.blockType = some d.blockType := by
    rw [hs, type?_standard, hdesign, Option.map_some]
  exact .block (s.lookup_eq_ok.2 ⟨hblock, htype⟩) hnode hoperands

theorem edge_iff_of_isNode (hs : s.catalog = .standard) {b : Block} {type : BlockType} {n : Node}
    (hlookup : s.lookup id = .ok (b, type)) (hnode : IsNode b s.registries n) {link : Link}
    {child : String} :
    s.Edge .value id link child ↔
      ∃ slot ∈ n.slots, link = .input slot ∧ b.inputs.get? slot = some child := by
  have htype := (s.lookup_eq_ok.1 hlookup).2
  rw [hs] at htype
  have hvisits := n.template.visits_rule
  rw [← hnode.rule htype, Node.links_template] at hvisits
  rw [edge_iff hlookup hvisits, Block.mem_edges, Role.links, List.mem_map]
  constructor
  · rintro ⟨⟨slot, hslot, rfl⟩, htarget⟩
    exact ⟨slot, hslot, rfl, htarget⟩
  · rintro ⟨slot, hslot, rfl, hinput⟩
    exact ⟨⟨slot, hslot, rfl⟩, hinput⟩

/-- A block of an expression refers to its operands only. -/
theorem Expresses.edge (hs : s.catalog = .standard) (h : s.Expresses (.block id) e) {link : Link}
    {child : String} (hedge : s.Edge .value id link child) :
    link.role = .value ∧ ∃ e', s.Expresses (.block child) e' ∧ sizeOf e' < sizeOf e := by
  cases h with
  | @block _ b type n operand hlookup hnode hoperands =>
      obtain ⟨slot, hslot, rfl, hinput⟩ := (edge_iff_of_isNode hs hlookup hnode).1 hedge
      have hoperand := hoperands slot hslot
      rw [BlockType.operand, hinput] at hoperand
      exact ⟨rfl, operand slot, hoperand, n.sizeOf_operand operand hslot⟩

theorem Expresses.route (hs : s.catalog = .standard) (h : s.Expresses (.block id) e)
    {role : Role} {steps : List (Link × String)} {x : String}
    (hroute : s.Route .value id steps role x) :
    ∃ e', s.Expresses (.block x) e' ∧ sizeOf e' ≤ sizeOf e := by
  generalize hrole : Role.value = start at hroute
  induction hroute generalizing e with
  | stop => exact ⟨e, h, Nat.le_refl _⟩
  | step hedge _ ih =>
      subst hrole
      obtain ⟨hlink, e₁, h₁, hlt⟩ := h.edge hs hedge
      obtain ⟨e₂, h₂, hle⟩ := ih h₁ hlink.symm
      exact ⟨e₂, h₂, by omega⟩

/-- No block of an expression contains itself: it would express smaller and smaller expressions. -/
theorem Expresses.ne_of_route (hs : s.catalog = .standard) (h : s.Expresses (.block id) e)
    {link : Link} {child : String} (hedge : s.Edge .value id link child) {role : Role}
    {steps : List (Link × String)} {x : String} (hroute : s.Route link.role child steps role x) :
    x ≠ id := by
  rintro rfl
  induction hsize : sizeOf e using Nat.strongRecOn generalizing e with
  | ind n ih =>
      obtain ⟨hlink, e₁, h₁, hlt⟩ := h.edge hs hedge
      rw [hlink] at hroute
      obtain ⟨e₂, h₂, hle⟩ := h₁.route hs hroute
      exact ih (sizeOf e₂) (by omega) h₂ rfl

section RunRule

variable {b : Block} {type : BlockType} {value : String → Walk (String × Precedence)}
  {chain : String → Walk String} {t t' : Trail}

/-- The slot is answered with the expression, and the trail is left as it was. -/
def Answers (b : Block) (type : BlockType) (value : String → Walk (String × Precedence))
    (t : Trail) (slot : String) (bound : Bound) (e : Expression) : Prop :=
  match b.inputs.get? slot with
  | none => bound.enclose e.text e.precedence = type.defaultFor slot
  | some child => ∀ outcome t', value child t = some (outcome, t') →
      outcome = .ok (e.text, e.precedence) ∧ t' = t

theorem Answers.runRule {slot : String} {bound : Bound}
    {next : Except GenerateError String → Rule} {result : Except GenerateError Phrase}
    (hanswers : Answers b type value t slot bound e)
    (h : s.runRule b type value chain (.value slot bound next) t = some (result, t')) :
    s.runRule b type value chain (next (.ok (bound.enclose e.text e.precedence))) t =
      some (result, t') := by
  rcases runRule_value_eq_some h with ⟨htarget, hrest⟩ | ⟨child, outcome, t₁, htarget, hwalk, hrest⟩
  · have hinput : b.inputs.get? slot = none := htarget
    rw [Answers, hinput] at hanswers
    rw [hanswers]
    exact hrest
  · have hinput : b.inputs.get? slot = some child := htarget
    rw [Answers, hinput] at hanswers
    obtain ⟨rfl, rfl⟩ := hanswers outcome t₁ hwalk
    exact hrest

theorem runRule_assemble {template : Template} {pieces : List Piece}
    {operand : String → Expression} (hbodies : ∀ slot form, Piece.body slot form ∉ pieces)
    (hslots : ∀ slot bound, Piece.value slot bound ∈ pieces →
      Answers b type value t slot bound (operand slot)) {code : String}
    {result : Except GenerateError Phrase}
    (h : s.runRule b type value chain (template.assemble pieces code) t = some (result, t')) :
    result = .ok (template.result
      (pieces.foldl (fun code piece => code ++ piece.filled operand) code)) ∧ t' = t := by
  induction pieces generalizing code with
  | nil =>
      cases h
      exact ⟨rfl, rfl⟩
  | cons piece rest ih =>
      have hbodies' : ∀ slot form, Piece.body slot form ∉ rest :=
        fun slot form hmem => hbodies slot form (List.mem_cons_of_mem _ hmem)
      have hslots' : ∀ slot bound, Piece.value slot bound ∈ rest →
          Answers b type value t slot bound (operand slot) :=
        fun slot bound hmem => hslots slot bound (List.mem_cons_of_mem _ hmem)
      cases piece with
      | text text => exact ih hbodies' hslots' h
      | body slot form => exact absurd List.mem_cons_self (hbodies slot form)
      | value slot bound =>
          exact ih hbodies' hslots' ((hslots slot bound List.mem_cons_self).runRule h)

end RunRule

/-- Rendering a block gives the text and the class of an expression, wherever no block below it is
held, and leaves the trail as it was. -/
def RendersAs (s : Surroundings) (id : String) (e : Expression) : Prop :=
  ∀ {b type depth t outcome t'}, s.lookup id = .ok (b, type) →
    (∀ {link child steps role x}, s.Edge .value id link child →
      s.Route link.role child steps role x → t.holds x = false) →
    s.render depth b type t = some (outcome, t') →
    outcome = .ok (.value e.text e.precedence) ∧ t' = t

theorem RendersAs.walkValue (hs : s.catalog = .standard) (h : s.Expresses (.block id) e)
    (hrenders : s.RendersAs id e) {depth : Nat} {t t' : Trail}
    {outcome : Except GenerateError (String × Precedence)}
    (hfree : ∀ {steps role x}, s.Route .value id steps role x → t.holds x = false)
    (hwalk : s.walkValue (s.render depth) id t = some (outcome, t')) :
    outcome = .ok (e.text, e.precedence) ∧ t' = t := by
  obtain ⟨b, type, hlookup⟩ := h.exists_lookup
  rw [walkValue_of_free (hfree (.stop .value id)) hlookup, Option.map_eq_some_iff] at hwalk
  obtain ⟨⟨outcome', t₁⟩, hrender, heq⟩ := hwalk
  cases heq
  have hbelow : ∀ {link child steps role x}, s.Edge .value id link child →
      s.Route link.role child steps role x → (t.enter id).holds x = false := by
    intro link child steps role x hedge hroute
    have hx := hfree (.step hedge hroute)
    rw [← Bool.not_eq_true, Trail.holds_iff] at hx ⊢
    rintro (hx' | hx')
    · rcases List.mem_cons.1 hx' with heq | hx'
      · exact h.ne_of_route hs hedge hroute heq
      · exact hx (.inl hx')
    · exact hx (.inr hx')
  obtain ⟨rfl, rfl⟩ := hrenders hlookup hbelow hrender
  exact ⟨rfl, rfl⟩

/-- A slot of a node is answered with its operand. -/
theorem Expresses.answers (hs : s.catalog = .standard) {b : Block} {type : BlockType} {n : Node}
    (hlookup : s.lookup id = .ok (b, type)) (hnode : IsNode b s.registries n) {slot : String}
    {bound : Bound} (hpiece : Piece.value slot bound ∈ n.template.pieces)
    (h : s.Expresses (type.operand b slot) e)
    (hrenders : ∀ {child}, type.operand b slot = .block child → s.RendersAs child e)
    {depth : Nat} {t : Trail}
    (hbelow : ∀ {link child steps role x}, s.Edge .value id link child →
      s.Route link.role child steps role x → t.holds x = false) :
    Answers b type (s.walkValue (s.render depth)) t slot bound e := by
  unfold Answers
  cases hinput : b.inputs.get? slot with
  | none =>
      rw [BlockType.operand, hinput] at h
      rw [h.eq_leaf]
      exact if_neg (n.not_excludes_atomic hpiece)
  | some child =>
      have hchild : type.operand b slot = .block child := by
        rw [BlockType.operand, hinput]
      have hedge : s.Edge .value id (.input slot) child :=
        (edge_iff_of_isNode hs hlookup hnode).2 ⟨slot, n.mem_slots_of_value hpiece, rfl, hinput⟩
      intro outcome t' hwalk
      exact RendersAs.walkValue hs (hchild ▸ h) (hrenders hchild)
        (fun hroute => hbelow hedge hroute) hwalk

theorem Expresses.rendersAs (hs : s.catalog = .standard) {o : Operand} (h : s.Expresses o e)
    (ho : o = .block id) : s.RendersAs id e := by
  induction h generalizing id with
  | text token => cases ho
  | @block id b type n operand hlookup hnode hoperands ih =>
      cases ho
      intro b' type' depth t outcome t' hlookup' hbelow hrender
      rw [hlookup] at hlookup'
      cases hlookup'
      cases depth with
      | zero => cases hrender
      | succ depth =>
          have htype := (s.lookup_eq_ok.1 hlookup).2
          rw [hs] at htype
          have hrun : s.runRule b type (s.walkValue (s.render depth)) (s.walkChain (s.render depth))
              (n.template.assemble n.template.pieces "") t = some (outcome, t') := by
            rw [← hrender, render, hnode.rule htype]
            rfl
          have hslots : ∀ slot bound, Piece.value slot bound ∈ n.template.pieces →
              Answers b type (s.walkValue (s.render depth)) t slot bound (operand slot) := by
            intro slot bound hpiece
            have hslot := n.mem_slots_of_value hpiece
            exact (hoperands slot hslot).answers hs hlookup hnode hpiece
              (fun hchild => ih slot hslot hchild) hbelow
          obtain ⟨rfl, rfl⟩ := runRule_assemble n.not_mem_body hslots hrun
          rw [n.text_build, n.result_build]
          exact ⟨rfl, rfl⟩

theorem intercalate_consText (separator code : String) :
    separator.intercalate (consText code []) = code := by
  unfold consText
  split
  · rename_i hempty
    rw [String.isEmpty_iff.1 hempty]
    rfl
  · exact String.intercalate_singleton

/-- A chain of one expression is the text of the expression. -/
theorem Expresses.walkChain (hs : s.catalog = .standard) (h : s.Expresses (.block id) e)
    (hnext : (s.workspace.block? id).bind (·.next) = none) {depth : Nat} {t' : Trail}
    {outcome : Except GenerateError String}
    (hwalk : s.walkChain (s.render depth) id .start = some (outcome, t')) :
    outcome = .ok e.text := by
  obtain ⟨b, type, hlookup⟩ := h.exists_lookup
  have hchain : s.workspace.chainIds id = [id] := by
    unfold Workspace.chainIds
    cases s.workspace.size with
    | zero => rfl
    | succ n => rw [Workspace.follow, hnext]
  have hbelow : ∀ {link child steps role x}, s.Edge .value id link child →
      s.Route link.role child steps role x → (Trail.start.place id).holds x = false := by
    intro link child steps role x hedge hroute
    rw [← Bool.not_eq_true, Trail.holds_iff]
    rintro (hx | hx)
    · cases hx
    · exact h.ne_of_route hs hedge hroute (List.mem_singleton.1 hx)
  have hrender : ∀ {outcome t₁}, s.render depth b type (Trail.start.place id) = some (outcome, t₁) →
      outcome = .ok (.value e.text e.precedence) :=
    fun hrender => (h.rendersAs hs rfl hlookup hbelow hrender).1
  have hblocks : ∀ {outcome t₁}, s.walkBlocks (s.render depth) [id] .start = some (outcome, t₁) →
      outcome = .ok (consText e.text []) := by
    intro outcome t₁ hblocks
    rw [walkBlocks_of_free rfl hlookup] at hblocks
    obtain ⟨phrase, t₂, hphrase, hrest⟩ := bind_of_ok (fun h => ⟨_, hrender h⟩) hblocks
    cases hrender hphrase
    cases hrest
    rfl
  change (s.walkBlocks (s.render depth) (s.workspace.chainIds id) >>= fun codes =>
    pure ("\n".intercalate codes)) .start = _ at hwalk
  rw [hchain] at hwalk
  obtain ⟨codes, t₁, hcodes, hend⟩ := bind_of_ok (fun h => ⟨_, hblocks h⟩) hwalk
  cases hblocks hcodes
  cases hend
  rw [intercalate_consText]

theorem Expresses.walkHeads (hs : s.catalog = .standard) (h : s.Expresses (.block id) e)
    (hnext : (s.workspace.block? id).bind (·.next) = none) {depth : Nat} {t' : Trail}
    {outcome : Except GenerateError (List String)}
    (hwalk : s.walkHeads depth [id] .start = some (outcome, t')) :
    outcome = .ok (consText e.text []) := by
  have hhead : ∀ {outcome t₁}, s.walkChain (s.render depth) id .start = some (outcome, t₁) →
      outcome = .ok e.text := fun hwalk => h.walkChain hs hnext hwalk
  obtain ⟨code, t₁, hcode, hrest⟩ := bind_of_ok (fun h => ⟨_, hhead h⟩) hwalk
  cases hhead hcode
  cases hrest
  rfl

theorem Expresses.walkValue (hs : s.catalog = .standard) (h : s.Expresses (.block id) e)
    {depth : Nat} {t t' : Trail} {outcome : Except GenerateError (String × Precedence)}
    (hfree : ∀ {steps role x}, s.Route .value id steps role x → t.holds x = false)
    (hwalk : s.walkValue (s.render depth) id t = some (outcome, t')) :
    outcome = .ok (e.text, e.precedence) ∧ t' = t :=
  RendersAs.walkValue hs h (h.rendersAs hs rfl) hfree hwalk

/-- A block graph that is nothing but an expression has the text of the expression as its
program. -/
theorem Expresses.generate (hs : s.catalog = .standard) (h : s.Expresses (.block id) e)
    (hheads : s.workspace.topLevelIds = [id])
    (hnext : (s.workspace.block? id).bind (·.next) = none) :
    generate s.catalog ⟨s.indentWidth, false⟩ s.workspace s.registries = .ok e.text := by
  obtain ⟨outcome, t, hwalk, heq⟩ :=
    generate_eq_map s.catalog ⟨s.indentWidth, false⟩ s.workspace s.registries
  rw [hheads] at hwalk
  rw [heq, h.walkHeads hs hnext hwalk]
  exact congrArg Except.ok (intercalate_consText "\n\n" e.text)

end Surroundings

open Surroundings Walk

/-- The text that stands for a tree of value blocks, wherever a walk comes to its root and as a
program of its own, has tokens from which the grammar derives that tree and no other one. -/
theorem derives_iff_of_expresses (v : Vocabulary) {s : Surroundings} (hs : s.catalog = .standard)
    {id : String} {e : Expression} (htree : s.Expresses (.block id) e) (hspelled : e.Spelled v) :
    ∃ code : String,
      (∀ depth t outcome t',
        (∀ steps role x, s.Route .value id steps role x → t.holds x = false) →
        s.walkValue (s.render depth) id t = some (outcome, t') →
        outcome = .ok (code, e.precedence) ∧ t' = t) ∧
      (∀ depth t, s.workspace.size ≤ depth → s.walkValue (s.render depth) id t ≠ none) ∧
      (s.workspace.topLevelIds = [id] → (s.workspace.block? id).bind (·.next) = none →
        generate s.catalog ⟨s.indentWidth, false⟩ s.workspace s.registries = .ok code) ∧
      ∀ e', Derives v .logical (Text.tokens code) e' ↔ e' = e := by
  refine ⟨e.text, ?_, ?_, ?_, ?_⟩
  · intro depth t outcome t' hfree hwalk
    exact htree.walkValue hs (fun hroute => hfree _ _ _ hroute) hwalk
  · intro depth t hdepth
    have hends : ∀ b type, Ends (s.Active (0 + 1)) (s.render depth b type) :=
      s.ends_render depth (by omega)
    exact ends_walkValue hends id t (active_zero t)
  · exact fun hheads hnext => htree.generate hs hheads hnext
  · intro e'
    rw [e.tokens_text hspelled]
    have hderives : Derives v .logical e.tokens e :=
      (e.derives hspelled).loosen_of_le e.precedence_le (Nat.le_refl _)
    constructor
    · exact fun h => h.unique hderives
    · rintro rfl
      exact hderives

/-- The difference of an empty slot and a difference. -/
def nestedDifference : Workspace :=
  Workspace.empty
    |>.insert "outer" ((Block.new "math_subtract").withInput "B" "inner" |>.atTopLevel 0 0)
    |>.insert "inner" ((Block.new "math_subtract").withInput "B" "ticks")
    |>.insert "ticks" (Block.new "observer_ticks")

theorem expresses_nestedDifference :
    Surroundings.Expresses ⟨.standard, nestedDifference, .empty, 2⟩ (.block "outer")
      (.infixed .sub (.leaf "0") (.infixed .sub (.leaf "0") (.leaf "ticks"))) := by
  have hticks : Surroundings.Expresses ⟨.standard, nestedDifference, .empty, 2⟩ (.block "ticks")
      (Node.build (fun _ => .leaf "") (.leaf "ticks")) :=
    .of_block (d := .keywordValue "observer_ticks" .number "ticks") (by dsimp only) (by rfl)
      (by rfl) (.leaf (by decide) rfl) (List.forall_mem_nil _)
  have hdifference : ∀ {id child : String} {b : Block} {e : Expression},
      nestedDifference.block? id = some b → b.blockType = "math_subtract" →
      b.inputs = Dict.empty.insert "B" child →
      Surroundings.Expresses ⟨.standard, nestedDifference, .empty, 2⟩ (.block child) e →
      Surroundings.Expresses ⟨.standard, nestedDifference, .empty, 2⟩ (.block id)
        (Node.build (fun slot => if slot = "A" then .leaf "0" else e) (.infixed .sub)) := by
    intro id child b e hblock htype hinputs hchild
    refine .of_block (d := .operator "math_subtract" "-" .additive .number) (by dsimp only) hblock
      (by rw [htype]; rfl) (.operator (by rw [htype]; decide)) ?_
    simp only [Node.slots, List.forall_mem_cons, BlockType.operand, hinputs, Dict.get?_insert]
    exact ⟨.text "0", hchild, List.forall_mem_nil _⟩
  exact hdifference (by rfl) rfl rfl (hdifference (by rfl) rfl rfl hticks)

theorem derives_nestedDifference :
    ∃ code, generate .standard ⟨2, false⟩ nestedDifference .empty = .ok code ∧
      ∀ e, Derives (.ofRegistries .empty Registries.coherent_empty) .logical (Text.tokens code) e ↔
        e = .infixed .sub (.leaf "0") (.infixed .sub (.leaf "0") (.leaf "ticks")) := by
  have hleaf : ∀ token ∈ ["0", "ticks"],
      Expression.Spelled (.ofRegistries .empty Registries.coherent_empty) (.leaf token) := by
    intro token htoken
    rcases List.mem_pair.1 htoken with rfl | rfl
    · exact ⟨⟨by decide, by decide, by decide⟩, .word (by decide) (by decide)⟩
    · exact ⟨⟨by decide, by decide, by decide⟩, .word (by decide) (by decide)⟩
  have hzero := hleaf "0" (by decide)
  obtain ⟨code, -, -, hgenerate, hderives⟩ :=
    derives_iff_of_expresses (.ofRegistries .empty Registries.coherent_empty) (by dsimp only)
      expresses_nestedDifference ⟨hzero, hzero, hleaf "ticks" (by decide)⟩
  dsimp only at hgenerate
  exact ⟨code, hgenerate (by decide +kernel) (by decide +kernel), hderives⟩

end AgentBlocks
