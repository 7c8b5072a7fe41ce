import AgentBlocks.Proofs.Catalog.Purity
import AgentBlocks.Proofs.Walk.Totality
import AgentBlocks.Proofs.Workspace.Order
import Mathlib.Data.List.Forall2

/-!
Expansions: what blocks stand for by recursion over the graph alone, without a trail. A program is
made of expansions, so the trail of the walk decides whether there is a program and never what it
says, and a graph may be replaced by one in which shared expressions have copies.
-/
namespace AgentBlocks

namespace Surroundings

/-- The text of a chain whose blocks have phrases: a line for each that is not empty. -/
def chainText (blocks : List (String × Phrase)) : String :=
  "\n".intercalate ((blocks.map (·.2.code)).filter (!·.isEmpty))

/-- The phrase of a rule when the slots of the block hold the expansions of what they refer to: of
an expression the phrase of its own rule, of a chain the text of the phrases of its blocks. -/
inductive Expands (s : Surroundings) : Block → BlockType → Rule → Phrase → Prop
  | done {b type} (phrase) : Expands s b type (.done (.ok phrase)) phrase
  | emptyInput {b type slot bound next phrase} : b.inputs.get? slot = none →
      Expands s b type (next (.ok (type.defaultFor slot))) phrase →
      Expands s b type (.value slot bound next) phrase
  | input {b type slot bound next child b₁ type₁ value phrase} :
      b.inputs.get? slot = some child → s.lookup child = .ok (b₁, type₁) →
      Expands s b₁ type₁ (type₁.rule b₁ s.registries) value →
      Expands s b type (next (.ok (bound.enclose value.code value.precedence))) phrase →
      Expands s b type (.value slot bound next) phrase
  | emptyBody {b type slot next phrase} : b.statements.get? slot = none →
      Expands s b type (next (.ok "")) phrase →
      Expands s b type (.statements slot next) phrase
  | body {b type slot next head blocks phrase} :
      b.statements.get? slot = some head → s.workspace.Chain head (blocks.map (·.1)) →
      (∀ e ∈ blocks, ∃ found, s.lookup e.1 = .ok found) →
      (∀ e ∈ blocks, ∀ b₁ type₁, s.lookup e.1 = .ok (b₁, type₁) →
        Expands s b₁ type₁ (type₁.rule b₁ s.registries) e.2) →
      Expands s b type (next (.ok (Text.indent s.indentWidth (chainText blocks)))) phrase →
      Expands s b type (.statements slot next) phrase

def ExpandsBlock (s : Surroundings) (id : String) (phrase : Phrase) : Prop :=
  ∃ b type, s.lookup id = .ok (b, type) ∧ s.Expands b type (type.rule b s.registries) phrase

def ExpandsChain (s : Surroundings) (head text : String) : Prop :=
  ∃ blocks, s.workspace.Chain head (blocks.map (·.1)) ∧ (∀ e ∈ blocks, s.ExpandsBlock e.1 e.2) ∧
    text = chainText blocks

variable {s : Surroundings} {b : Block} {type : BlockType}

theorem eq_of_map_fst {blocks blocks' : List (String × Phrase)}
    (hids : blocks'.map (·.1) = blocks.map (·.1))
    (hphrases : ∀ e ∈ blocks, ∀ phrase', (e.1, phrase') ∈ blocks' → phrase' = e.2) :
    blocks' = blocks := by
  induction blocks generalizing blocks' with
  | nil => exact List.map_eq_nil_iff.1 hids
  | cons e rest ih =>
      obtain ⟨⟨id', phrase'⟩, rest', rfl, rfl, hrest⟩ := List.map_eq_cons_iff.1 hids
      rw [hphrases e List.mem_cons_self phrase' List.mem_cons_self, ih hrest fun x hx phrase'' h =>
        hphrases x (List.mem_cons_of_mem e hx) phrase'' (List.mem_cons_of_mem _ h)]

/-- What a block expands to is determined by the graph. -/
theorem Expands.unique {rule : Rule} {phrase phrase' : Phrase} (h : s.Expands b type rule phrase)
    (h' : s.Expands b type rule phrase') : phrase' = phrase := by
  induction h generalizing phrase' with
  | done phrase =>
      cases h'
      rfl
  | emptyInput hslot _ ih =>
      cases h' with
      | emptyInput _ hrest' => exact ih hrest'
      | input hslot' => cases hslot.symm.trans hslot'
  | input hslot hlookup _ _ ihchild ih =>
      cases h' with
      | emptyInput hslot' => cases hslot.symm.trans hslot'
      | input hslot' hlookup' hchild' hrest' =>
          cases hslot.symm.trans hslot'
          cases hlookup.symm.trans hlookup'
          rw [ihchild hchild'] at hrest'
          exact ih hrest'
  | emptyBody hslot _ ih =>
      cases h' with
      | emptyBody _ hrest' => exact ih hrest'
      | body hslot' => cases hslot.symm.trans hslot'
  | @body b type slot next head blocks phrase hslot hchain hfound _ _ ihblocks ih =>
      cases h' with
      | emptyBody hslot' => cases hslot.symm.trans hslot'
      | @body _ _ _ _ _ blocks' _ hslot' hchain' _ hblocks' hrest' =>
          cases hslot.symm.trans hslot'
          -- the ids are those along `next`, the phrases agree by induction
          have hsame : blocks' = blocks := by
            refine eq_of_map_fst (hchain.unique hchain') fun e he phrase' he' => ?_
            obtain ⟨⟨b₁, type₁⟩, hlookup⟩ := hfound e he
            exact ihblocks e he b₁ type₁ hlookup (hblocks' _ he' b₁ type₁ hlookup)
          rw [hsame] at hrest'
          exact ih hrest'

theorem ExpandsBlock.unique {id : String} {phrase phrase' : Phrase} (h : s.ExpandsBlock id phrase)
    (h' : s.ExpandsBlock id phrase') : phrase' = phrase := by
  obtain ⟨b, type, hlookup, hrule⟩ := h
  obtain ⟨b', type', hlookup', hrule'⟩ := h'
  cases hlookup.symm.trans hlookup'
  exact hrule.unique hrule'

theorem ExpandsChain.unique {head text text' : String} (h : s.ExpandsChain head text)
    (h' : s.ExpandsChain head text') : text' = text := by
  obtain ⟨blocks, hchain, hblocks, rfl⟩ := h
  obtain ⟨blocks', hchain', hblocks', rfl⟩ := h'
  rw [eq_of_map_fst (hchain.unique hchain') fun e he phrase' he' =>
    (hblocks e he).unique (hblocks' _ he')]

theorem consText_eq_filter (code : String) (codes : List String) :
    consText code (codes.filter (!·.isEmpty)) = (code :: codes).filter (!·.isEmpty) := by
  cases h : code.isEmpty <;> simp [consText, h]

end Surroundings

/-- A block refers to what another one refers to, or to copies of it: `origin` tells of which block
every id is a copy, be it of itself. -/
structure Block.Copies (origin : String → String) (b' b : Block) : Prop where
  blockType : b'.blockType = b.blockType
  fields : b'.fields = b.fields
  inputs : ∀ slot, (b'.inputs.get? slot).map origin = b.inputs.get? slot
  statements : ∀ slot, (b'.statements.get? slot).map origin = b.statements.get? slot
  next : b'.next.map origin = b.next

/-- A graph whose blocks are those of another one and copies of them. -/
structure Workspace.Copies (origin : String → String) (w' w : Workspace) : Prop where
  heads : w'.topLevelIds.map origin = w.topLevelIds
  blocks : ∀ id b', w'.block? id = some b' → ∃ b, w.block? (origin id) = some b ∧
    b'.Copies origin b

theorem Block.Copies.refl (b : Block) : b.Copies id b :=
  ⟨rfl, rfl, fun _ => Option.map_id_apply, fun _ => Option.map_id_apply, Option.map_id_apply⟩

theorem Workspace.Copies.refl (w : Workspace) : w.Copies id w :=
  ⟨List.map_id _, fun _ b hb => ⟨b, hb, .refl b⟩⟩

theorem Dict.contains_eq_of_get?_map {α β : Type} {d : Dict α} {e : Dict β} {f : α → β}
    {key : String} (h : (d.get? key).map f = e.get? key) : d.contains key = e.contains key := by
  rw [contains_eq_isSome_get?, contains_eq_isSome_get?, ← h, Option.isSome_map]

theorem Block.Copies.alike {origin : String → String} {b b' : Block} (h : b'.Copies origin b) :
    b'.Alike b :=
  ⟨h.blockType, h.fields, fun slot => Dict.contains_eq_of_get?_map (h.inputs slot),
    fun slot => Dict.contains_eq_of_get?_map (h.statements slot)⟩

namespace Surroundings

open Walk

variable {s : Surroundings} {w' : Workspace} {origin : String → String} {b b' : Block}
  {type : BlockType} {t t' : Trail}

theorem lookup_of_copies (hw : w'.Copies origin s.workspace) {id : String}
    (h : { s with workspace := w' }.lookup id = .ok (b', type)) :
    ∃ b, s.lookup (origin id) = .ok (b, type) ∧ b'.Copies origin b := by
  obtain ⟨hb', htype⟩ := lookup_eq_ok _ |>.1 h
  obtain ⟨b, hb, hcopies⟩ := hw.blocks id b' hb'
  exact ⟨b, s.lookup_eq_ok.2 ⟨hb, hcopies.blockType ▸ htype⟩, hcopies⟩

/-- What a walk finds under an id is the expansion of the block that the id is a copy of. -/
def FindsBlock (s : Surroundings) (origin : String → String)
    (walk : String → Walk (String × Precedence)) : Prop :=
  ∀ id t a t', walk id t = some (.ok a, t') →
    ∃ phrase, s.ExpandsBlock (origin id) phrase ∧ a = (phrase.code, phrase.precedence)

def FindsChain (s : Surroundings) (origin : String → String) (walk : String → Walk String) :
    Prop :=
  ∀ id t code t', walk id t = some (.ok code, t') → s.ExpandsChain (origin id) code

theorem expands_of_runRule (hb : b'.Copies origin b)
    {value : String → Walk (String × Precedence)} {chain : String → Walk String}
    (hvalue : s.FindsBlock origin value) (hchain : s.FindsChain origin chain) {rule : Rule}
    (hrule : rule.HandsOn) {phrase : Phrase}
    (h : { s with workspace := w' }.runRule b' type value chain rule t = some (.ok phrase, t')) :
    s.Expands b type rule phrase := by
  induction hrule generalizing t with
  | done result =>
      obtain ⟨rfl, -⟩ := result_eq_some.1 h
      exact .done phrase
  | value slot bound next error ok ih =>
      rcases runRule_value_eq_some h with
        ⟨hslot, hrest⟩ | ⟨child, outcome, t₁, hslot, hwalk, hrest⟩
      · have hempty := hb.inputs slot
        rw [show b'.inputs.get? slot = none from hslot, Option.map_none] at hempty
        exact .emptyInput hempty.symm (ih _ hrest)
      · have hfilled := hb.inputs slot
        rw [show b'.inputs.get? slot = some child from hslot, Option.map_some] at hfilled
        cases outcome with
        | error e =>
            -- the rule would have handed the error on
            have hfail : { s with workspace := w' }.runRule b' type value chain (.fail e) t₁ = _ :=
              error e ▸ hrest
            cases runRule_fail hfail
        | ok a =>
            obtain ⟨found, ⟨b₁, type₁, hlookup, hfound⟩, rfl⟩ := hvalue _ _ _ _ hwalk
            exact .input hfilled.symm hlookup hfound (ih _ hrest)
  | statements slot next error ok ih =>
      rcases runRule_statements_eq_some h with
        ⟨hslot, hrest⟩ | ⟨head, outcome, t₁, hslot, hwalk, hrest⟩
      · have hempty := hb.statements slot
        rw [show b'.statements.get? slot = none from hslot, Option.map_none] at hempty
        exact .emptyBody hempty.symm (ih _ hrest)
      · have hfilled := hb.statements slot
        rw [show b'.statements.get? slot = some head from hslot, Option.map_some] at hfilled
        cases outcome with
        | error e =>
            have hfail : { s with workspace := w' }.runRule b' type value chain (.fail e) t₁ = _ :=
              error e ▸ hrest
            cases runRule_fail hfail
        | ok code =>
            obtain ⟨blocks, hhead, hblocks, rfl⟩ := hchain _ _ _ _ hwalk
            refine .body hfilled.symm hhead (fun e he => ?_) (fun e he => ?_) (ih _ hrest)
            · obtain ⟨b₁, type₁, hlookup, -⟩ := hblocks e he
              exact ⟨_, hlookup⟩
            · obtain ⟨b₁, type₁, hlookup, hexpands⟩ := hblocks e he
              intro b₂ type₂ hlookup'
              rw [hlookup] at hlookup'
              cases hlookup'
              exact hexpands

/-- Rendering gives the expansions of the blocks that are copied. -/
def RendersCopies (s : Surroundings) (origin : String → String)
    (render : Block → BlockType → Walk Phrase) : Prop :=
  ∀ b b' type phrase t t', s.catalog.type? b.blockType = some type → b'.Copies origin b →
    render b' type t = some (.ok phrase, t') → s.Expands b type (type.rule b s.registries) phrase

section Render

variable {render : Block → BlockType → Walk Phrase} (hw : w'.Copies origin s.workspace)
  (hrender : s.RendersCopies origin render)
include hw hrender

theorem expandsBlock_of_render {id : String} {phrase : Phrase}
    (hlookup : { s with workspace := w' }.lookup id = .ok (b', type))
    (h : render b' type t = some (.ok phrase, t')) :
    s.ExpandsBlock (origin id) phrase ∧
      (s.workspace.block? (origin id)).bind (·.next) = b'.next.map origin := by
  obtain ⟨b, hfound, hcopies⟩ := lookup_of_copies hw hlookup
  obtain ⟨hb, htype⟩ := s.lookup_eq_ok.1 hfound
  refine ⟨⟨b, type, hfound, hrender _ _ _ _ _ _ htype hcopies h⟩, ?_⟩
  rw [hb, Option.bind_some, hcopies.next]

theorem findsBlock_walkValue :
    s.FindsBlock origin ({ s with workspace := w' }.walkValue render) := by
  intro id t a t' h
  obtain ⟨b', type, phrase, t₁, -, hlookup, hrendered, -, rfl⟩ := walkValue_eq_ok h
  exact ⟨phrase, (expandsBlock_of_render hw hrender hlookup hrendered).1, rfl⟩

theorem expandsChain_of_walkBlocks {id : String} {ids codes : List String}
    (hchain : w'.Chain id ids)
    (h : { s with workspace := w' }.walkBlocks render ids t = some (.ok codes, t')) :
    ∃ blocks : List (String × Phrase), s.workspace.Chain (origin id) (blocks.map (·.1)) ∧
      (∀ e ∈ blocks, s.ExpandsBlock e.1 e.2) ∧
      codes = (blocks.map (·.2.code)).filter (!·.isEmpty) := by
  induction hchain generalizing t codes with
  | @last id hend =>
      obtain ⟨b', type, phrase, t₁, codes', -, hlookup, hrendered, hrest, rfl⟩ :=
        walkBlocks_cons_eq_ok h
      cases hrest
      obtain ⟨hblock, hnext⟩ := expandsBlock_of_render hw hrender hlookup hrendered
      rw [(lookup_eq_ok { s with workspace := w' }).1 hlookup |>.1, Option.bind_some] at hend
      rw [hend] at hnext
      refine ⟨[(origin id, phrase)], .last hnext, ?_, consText_eq_filter _ []⟩
      simpa using hblock
  | @cons id next rest hend _ ih =>
      obtain ⟨b', type, phrase, t₁, codes', -, hlookup, hrendered, hrest, rfl⟩ :=
        walkBlocks_cons_eq_ok h
      obtain ⟨hblock, hnext⟩ := expandsBlock_of_render hw hrender hlookup hrendered
      rw [(lookup_eq_ok { s with workspace := w' }).1 hlookup |>.1, Option.bind_some] at hend
      rw [hend] at hnext
      obtain ⟨blocks, hblocks, hexpands, rfl⟩ := ih hrest
      refine ⟨(origin id, phrase) :: blocks, .cons hnext hblocks, ?_, consText_eq_filter _ _⟩
      exact List.forall_mem_cons.2 ⟨hblock, hexpands⟩

theorem findsChain_walkChain (hkeeps : ∀ b type, (render b type).Keeps) :
    s.FindsChain origin ({ s with workspace := w' }.walkChain render) := by
  intro id t code t' h
  obtain ⟨codes, hblocks, rfl⟩ := walkChain_eq_ok h
  obtain ⟨hnodup, hids⟩ := distinct_of_walkBlocks hkeeps hblocks
  have hchain := Workspace.chain_chainIds hnodup fun id hid => (hids id hid).2
  obtain ⟨blocks, hchain', hexpands, rfl⟩ :=
    expandsChain_of_walkBlocks hw hrender hchain hblocks
  exact ⟨blocks, hchain', hexpands, rfl⟩

end Render

theorem rendersCopies_render (hc : s.catalog.Pure) (hw : w'.Copies origin s.workspace)
    (depth : Nat) : s.RendersCopies origin ({ s with workspace := w' }.render depth) := by
  induction depth with
  | zero =>
      intro b b' type phrase t t' _ _ h
      cases h
  | succ depth ih =>
      intro b b' type phrase t t' htype hcopies h
      have hrule : type.rule b' s.registries = type.rule b s.registries :=
        hc.alike htype hcopies.alike s.registries
      have hkeeps := { s with workspace := w' }.keeps_render depth
      rw [render, hrule] at h
      exact expands_of_runRule hcopies (findsBlock_walkValue hw ih)
        (findsChain_walkChain hw ih hkeeps) (hc.handsOn htype b s.registries) h

theorem expandsChain_of_walkHeads (hc : s.catalog.Pure) (hw : w'.Copies origin s.workspace)
    {depth : Nat} {heads codes : List String}
    (h : { s with workspace := w' }.walkHeads depth heads t = some (.ok codes, t')) :
    ∃ texts, List.Forall₂ s.ExpandsChain (heads.map origin) texts ∧
      codes = texts.filter (!·.isEmpty) := by
  induction heads generalizing t codes with
  | nil =>
      cases h
      exact ⟨[], .nil, rfl⟩
  | cons head rest ih =>
      obtain ⟨code, t₁, hhead, hrest⟩ := bind_eq_ok.1 h
      obtain ⟨codes', t₂, hcodes, hend⟩ := bind_eq_ok.1 hrest
      cases hend
      obtain ⟨texts, htexts, rfl⟩ := ih hcodes
      have hkeeps := { s with workspace := w' }.keeps_render depth
      have hcode := findsChain_walkChain hw (rendersCopies_render hc hw depth) hkeeps _ _ _ _ hhead
      exact ⟨code :: texts, .cons hcode htexts, consText_eq_filter code texts⟩

end Surroundings

/-- A program is made of the expansions of the top-level blocks, also when those are taken from the
graph that is copied. -/
theorem expandsChain_of_generate {c : Catalog} (hc : c.Pure) {w w' : Workspace}
    {origin : String → String} (hw : w'.Copies origin w) {options : GenerateOptions}
    {r : Registries} {text : String} (h : generate c options w' r = .ok text) :
    ∃ texts, List.Forall₂ (Surroundings.ExpandsChain ⟨c, w, r, options.indentWidth⟩)
        w.topLevelIds texts ∧
      text = "\n\n".intercalate ((if options.includeDeclarations then r.declarations else []) ++
        texts.filter (!·.isEmpty)) := by
  obtain ⟨outcome, t, hwalk, heq⟩ := generate_eq_map c options w' r
  rw [h] at heq
  cases outcome with
  | error e => cases heq
  | ok chains =>
      obtain ⟨texts, htexts, rfl⟩ := Surroundings.expandsChain_of_walkHeads
        (s := ⟨c, w, r, options.indentWidth⟩) hc hw hwalk
      cases heq
      rw [hw.heads] at htexts
      exact ⟨texts, htexts, rfl⟩

/-- What a program says is decided without a trail: it is made of the declarations and of the
expansions of the top-level blocks in their order, which the graph determines. A graph with copies
of shared blocks that has a program too has the same one. -/
theorem generate_eq_expansion {c : Catalog} (hc : c.Pure) (options : GenerateOptions)
    (w : Workspace) (r : Registries) :
    let s : Surroundings := ⟨c, w, r, options.indentWidth⟩
    (∃ heads : List Workspace.Position, heads.Pairwise (fun p q => p.precedes q = true) ∧
      heads.Perm
        ((w.blocks.entries.filter (·.2.topLevel)).map fun e => Workspace.positionOf e.1 e.2) ∧
      ∀ text, generate c options w r = .ok text →
        ∃ texts, List.Forall₂ (fun p text => s.ExpandsChain p.id text) heads texts ∧
          text = "\n\n".intercalate
            ((if options.includeDeclarations then r.declarations else []) ++
              texts.filter (!·.isEmpty))) ∧
      (∀ head text text', s.ExpandsChain head text → s.ExpandsChain head text' → text' = text) ∧
      ∀ w' origin, w'.Copies origin w → ∀ text text', generate c options w r = .ok text →
        generate c options w' r = .ok text' → text' = text := by
  intro s
  refine ⟨⟨w.topLevelPositions, w.pairwise_topLevelPositions, w.topLevelPositions_perm, ?_⟩,
    fun _ _ _ h h' => h.unique h', ?_⟩
  · intro text h
    obtain ⟨texts, htexts, rfl⟩ := expandsChain_of_generate hc (.refl w) h
    rw [Workspace.topLevelIds, List.forall₂_map_left_iff] at htexts
    exact ⟨texts, htexts, rfl⟩
  · intro w' origin hw text text' h h'
    obtain ⟨texts, htexts, rfl⟩ := expandsChain_of_generate hc (.refl w) h
    obtain ⟨texts', htexts', rfl⟩ := expandsChain_of_generate hc hw h'
    have hunique : Relator.RightUnique s.ExpandsChain := fun _ _ _ h h' => h'.unique h
    rw [hunique.forall₂ htexts htexts']

/-- The sum of an expression with a copy of it, in place of the sum with itself. -/
def showCopied : Workspace :=
  showTwice
    |>.insert "sum" ((Block.new "math_add").withInput "A" "ticks" |>.withInput "B" "copy")
    |>.insert "copy" (Block.new "observer_ticks")

theorem copies_showCopied :
    showCopied.Copies (fun id => if id = "copy" then "ticks" else id) showTwice := by
  refine ⟨by decide +kernel, fun id b' hb' => ?_⟩
  simp only [showCopied, showTwice, Workspace.insert, Workspace.block?, Dict.get?_insert] at hb'
  split at hb'
  · rename_i hcopy
    subst hcopy
    cases hb'
    exact ⟨_, rfl, rfl, rfl, fun _ => rfl, fun _ => rfl, rfl⟩
  · split at hb'
    · rename_i hsum
      subst hsum
      cases hb'
      refine ⟨_, rfl, rfl, rfl, fun slot => ?_, fun _ => rfl, rfl⟩
      simp only [Block.withInput, Dict.get?_insert]
      split
      · rfl
      · split <;> rfl
    · split at hb'
      · rename_i hticks
        subst hticks
        cases hb'
        exact ⟨_, rfl, rfl, rfl, fun _ => rfl, fun _ => rfl, rfl⟩
      · split at hb'
        · rename_i hshow
          subst hshow
          cases hb'
          refine ⟨_, rfl, rfl, rfl, fun slot => ?_, fun _ => rfl, rfl⟩
          simp only [Block.atTopLevel, Block.withInput, Dict.get?_insert]
          split <;> rfl
        · cases hb'

theorem generate_showCopied :
    generate .standard .default showTwice .empty = .ok "show ticks + ticks" ∧
      ∃ text, generate .standard .default showCopied .empty = .ok text ∧
        text = "show ticks + ticks" := by
  have hboth : generate .standard .default showTwice .empty = .ok "show ticks + ticks" ∧
      generate .standard .default showCopied .empty = .ok "show ticks + ticks" := by
    decide +kernel
  obtain ⟨h, h'⟩ := hboth
  have hsame := (generate_eq_expansion Catalog.pure_standard .default showTwice .empty).2.2
    showCopied _ copies_showCopied _ _ h h'
  exact ⟨h, _, h', hsame⟩

end AgentBlocks
