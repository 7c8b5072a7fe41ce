import AgentBlocks.Catalog.Design
import AgentBlocks.Proofs.Walk.Expansion
import AgentBlocks.Proofs.Walk.Locality

/-!
Texts put together from pieces. Where rules are templates, the text of a block is that of its pieces
with the texts of its neighbours in the slots, and what holds of such texts whenever it holds of the
neighbours holds of every block.
-/
namespace AgentBlocks

/-- The types of the catalog are those of the designs. -/
def Catalog.MadeOf (c : Catalog) (designs : List Design) : Prop :=
  ∀ ⦃name type⦄, c.type? name = some type → ∃ d ∈ designs, d.name = name ∧ d.blockType = type

namespace Surroundings

/-- A text for pieces, with phrases for the blocks in the filled value slots and with texts for the
chains in the filled statement slots. -/
inductive Fills (s : Surroundings) (block : String → Phrase → Prop)
    (chain : String → String → Prop) (b : Block) (type : BlockType) : List Piece → String → Prop
  | nil : Fills s block chain b type [] ""
  | text (word) {rest code} : Fills s block chain b type rest code →
      Fills s block chain b type (.text word :: rest) (word ++ code)
  | emptyInput {slot bound rest code} : b.inputs.get? slot = none →
      Fills s block chain b type rest code →
      Fills s block chain b type (.value slot bound :: rest) (type.defaultFor slot ++ code)
  | input {slot bound rest code child phrase} : b.inputs.get? slot = some child →
      block child phrase → Fills s block chain b type rest code →
      Fills s block chain b type (.value slot bound :: rest)
        (bound.enclose phrase.code phrase.precedence ++ code)
  | emptyBody {slot form rest code} : b.statements.get? slot = none →
      Fills s block chain b type rest code →
      Fills s block chain b type (.body slot form :: rest) (form.text "" ++ code)
  | body {slot form rest code head text} : b.statements.get? slot = some head →
      chain head text → Fills s block chain b type rest code →
      Fills s block chain b type (.body slot form :: rest)
        (form.text (Text.indent s.indentWidth text) ++ code)

/-- A text for a chain, with a phrase for each of its blocks. -/
def ChainOf (s : Surroundings) (block : String → Phrase → Prop) (head text : String) : Prop :=
  ∃ blocks, s.workspace.Chain head (blocks.map (·.1)) ∧ (∀ e ∈ blocks, block e.1 e.2) ∧
    text = chainText blocks

variable {s : Surroundings} {block block' : String → Phrase → Prop}
  {chain chain' : String → String → Prop} {b : Block} {type : BlockType} {t : Template}
  {pieces rest : List Piece} {code text : String} {phrase : Phrase}

theorem fills_append : s.Fills block chain b type (pieces ++ rest) text ↔
    ∃ code code', s.Fills block chain b type pieces code ∧ s.Fills block chain b type rest code' ∧
      text = code ++ code' := by
  constructor
  · intro h
    induction pieces generalizing text with
    | nil => exact ⟨"", text, .nil, h, (String.empty_append).symm⟩
    | cons piece pieces ih =>
        cases h with
        | text word h =>
            obtain ⟨code, code', hcode, hcode', rfl⟩ := ih h
            exact ⟨_, code', .text word hcode, hcode', (String.append_assoc ..).symm⟩
        | emptyInput hslot h =>
            obtain ⟨code, code', hcode, hcode', rfl⟩ := ih h
            exact ⟨_, code', .emptyInput hslot hcode, hcode', (String.append_assoc ..).symm⟩
        | input hslot hchild h =>
            obtain ⟨code, code', hcode, hcode', rfl⟩ := ih h
            exact ⟨_, code', .input hslot hchild hcode, hcode', (String.append_assoc ..).symm⟩
        | emptyBody hslot h =>
            obtain ⟨code, code', hcode, hcode', rfl⟩ := ih h
            exact ⟨_, code', .emptyBody hslot hcode, hcode', (String.append_assoc ..).symm⟩
        | body hslot hhead h =>
            obtain ⟨code, code', hcode, hcode', rfl⟩ := ih h
            exact ⟨_, code', .body hslot hhead hcode, hcode', (String.append_assoc ..).symm⟩
  · rintro ⟨code, code', hcode, hcode', rfl⟩
    induction hcode with
    | nil => rwa [String.empty_append]
    | text word _ ih =>
        rw [String.append_assoc]
        exact .text word ih
    | emptyInput hslot _ ih =>
        rw [String.append_assoc]
        exact .emptyInput hslot ih
    | input hslot hchild _ ih =>
        rw [String.append_assoc]
        exact .input hslot hchild ih
    | emptyBody hslot _ ih =>
        rw [String.append_assoc]
        exact .emptyBody hslot ih
    | body hslot hhead _ ih =>
        rw [String.append_assoc]
        exact .body hslot hhead ih

theorem Fills.uncons {piece : Piece} (h : s.Fills block chain b type (piece :: rest) text) :
    ∃ code code', s.Fills block chain b type [piece] code ∧ s.Fills block chain b type rest code' ∧
      text = code ++ code' := by
  rw [← List.singleton_append] at h
  exact fills_append.1 h

theorem Fills.eq_text {word : String} (h : s.Fills block chain b type [.text word] text) :
    text = word := by
  cases h with
  | text _ hnil =>
      cases hnil
      exact String.append_empty

/-- The expansion of a template is the text of its pieces. -/
theorem Fills.expands (h : s.Fills s.ExpandsBlock s.ExpandsChain b type pieces text)
    (code : String) : s.Expands b type (t.assemble pieces code) (t.result (code ++ text)) := by
  induction h generalizing code with
  | nil =>
      rw [String.append_empty]
      exact .done _
  | text word _ ih =>
      rw [← String.append_assoc]
      exact ih _
  | emptyInput hslot _ ih =>
      rw [← String.append_assoc]
      exact .emptyInput hslot (ih _)
  | input hslot hchild _ ih =>
      obtain ⟨b₁, type₁, hlookup, hexpands⟩ := hchild
      rw [← String.append_assoc]
      exact .input hslot hlookup hexpands (ih _)
  | emptyBody hslot _ ih =>
      rw [← String.append_assoc]
      exact .emptyBody hslot (ih _)
  | body hslot hhead _ ih =>
      obtain ⟨blocks, hchain, hblocks, rfl⟩ := hhead
      rw [← String.append_assoc]
      refine .body hslot hchain (fun e he => ?_) (fun e he b₁ type₁ hlookup => ?_) (ih _)
      · obtain ⟨b₁, type₁, hlookup, -⟩ := hblocks e he
        exact ⟨_, hlookup⟩
      · obtain ⟨b₂, type₂, hlookup', hexpands⟩ := hblocks e he
        cases hlookup.symm.trans hlookup'
        exact hexpands

theorem Fills.words (words : List String) (h : s.Fills block chain b type rest text) :
    s.Fills block chain b type (words.map .text ++ rest) (String.join words ++ text) := by
  induction words with
  | nil => simpa using h
  | cons word words ih =>
      rw [String.join_cons, String.append_assoc]
      exact .text word ih

/-- A text for pieces with other phrases and texts for what the slots refer to. -/
theorem Fills.imp (h : s.Fills block chain b type pieces text)
    (hblock : ∀ slot child phrase, Link.input slot ∈ pieces.filterMap Piece.link? →
      b.inputs.get? slot = some child → block child phrase → block' child phrase)
    (hchain : ∀ slot head text, Link.body slot ∈ pieces.filterMap Piece.link? →
      b.statements.get? slot = some head → chain head text → chain' head text) :
    s.Fills block' chain' b type pieces text := by
  induction h with
  | nil => exact .nil
  | text word _ ih => exact .text word (ih hblock hchain)
  | emptyInput hslot _ ih =>
      exact .emptyInput hslot (ih (fun _ _ _ hmem => hblock _ _ _ (List.mem_cons_of_mem _ hmem))
        fun _ _ _ hmem => hchain _ _ _ (List.mem_cons_of_mem _ hmem))
  | input hslot hchild _ ih =>
      refine .input hslot (hblock _ _ _ List.mem_cons_self hslot hchild) ?_
      exact ih (fun _ _ _ hmem => hblock _ _ _ (List.mem_cons_of_mem _ hmem))
        fun _ _ _ hmem => hchain _ _ _ (List.mem_cons_of_mem _ hmem)
  | emptyBody hslot _ ih =>
      exact .emptyBody hslot (ih (fun _ _ _ hmem => hblock _ _ _ (List.mem_cons_of_mem _ hmem))
        fun _ _ _ hmem => hchain _ _ _ (List.mem_cons_of_mem _ hmem))
  | body hslot hhead _ ih =>
      refine .body hslot (hchain _ _ _ List.mem_cons_self hslot hhead) ?_
      exact ih (fun _ _ _ hmem => hblock _ _ _ (List.mem_cons_of_mem _ hmem))
        fun _ _ _ hmem => hchain _ _ _ (List.mem_cons_of_mem _ hmem)

theorem ChainOf.imp {head : String} (h : s.ChainOf block head text)
    (himp : ∀ id phrase, block id phrase → block' id phrase) : s.ChainOf block' head text := by
  obtain ⟨blocks, hchain, hblocks, htext⟩ := h
  exact ⟨blocks, hchain, fun e he => himp _ _ (hblocks e he), htext⟩

/-- A chain is its first block, and the chain from the next one on. -/
theorem ExpandsChain.uncons {id : String} (h : s.ExpandsChain id text) :
    ∃ phrase rest, s.ExpandsBlock id phrase ∧ text = chainText ((id, phrase) :: rest) ∧
      ((s.workspace.block? id).bind (·.next) = none ∧ rest = [] ∨
        ∃ next, (s.workspace.block? id).bind (·.next) = some next ∧
          s.workspace.Chain next (rest.map (·.1)) ∧ ∀ e ∈ rest, s.ExpandsBlock e.1 e.2) := by
  obtain ⟨blocks, hchain, hblocks, rfl⟩ := h
  generalize hids : blocks.map (·.1) = ids at hchain
  cases hchain with
  | last hend =>
      obtain ⟨⟨id, phrase⟩, rfl, rfl⟩ := List.map_eq_singleton_iff.1 hids
      exact ⟨phrase, [], hblocks _ List.mem_cons_self, rfl, .inl ⟨hend, rfl⟩⟩
  | cons hnext hrest =>
      obtain ⟨⟨id, phrase⟩, rest, rfl, rfl, rfl⟩ := List.map_eq_cons_iff.1 hids
      obtain ⟨hblock, hblocks⟩ := List.forall_mem_cons.1 hblocks
      exact ⟨phrase, rest, hblock, rfl, .inr ⟨_, hnext, hrest, hblocks⟩⟩

/-- Along a chain of known blocks every one is reached. -/
theorem reached_of_chain {reached : Role → String → Prop} (hclosed : s.Closed reached)
    {head : String} {ids : List String} (hchain : s.workspace.Chain head ids)
    (hhead : reached .chain head)
    (hknown : ∀ id ∈ ids, ∃ found, s.lookup id = .ok found) : ∀ id ∈ ids, reached .chain id := by
  induction hchain with
  | last hend => exact List.forall_mem_singleton.2 hhead
  | cons hnext _ ih =>
      obtain ⟨⟨⟨b, type⟩, hlookup⟩, hrest⟩ := List.forall_mem_cons.1 hknown
      rw [(s.lookup_eq_ok.1 hlookup).1, Option.bind_some] at hnext
      have hedge : reached Link.next.role _ :=
        hclosed hhead ⟨b, type, hlookup, hnext, .inl ⟨rfl, rfl⟩⟩
      exact List.forall_mem_cons.2 ⟨hhead, ih hedge hrest⟩

end Surroundings

namespace Template

variable {t : Template} {pieces : List Piece} {code slot : String}

theorem code_result (t : Template) (code : String) : (t.result code).code = code := by
  unfold result
  split <;> rfl

theorem assemble_eq_done {result : Except GenerateError Phrase}
    (h : t.assemble pieces code = .done result) :
    ∃ words : List String, pieces = words.map .text ∧
      result = .ok (t.result (code ++ String.join words)) := by
  induction pieces generalizing code with
  | nil =>
      cases h
      exact ⟨[], rfl, by simp⟩
  | cons piece pieces ih =>
      cases piece with
      | text word =>
          obtain ⟨words, rfl, rfl⟩ := ih h
          exact ⟨word :: words, rfl, by rw [String.join_cons, String.append_assoc]⟩
      | value slot bound => cases h
      | body slot form => cases h

theorem assemble_eq_value {bound : Bound} {next : Except GenerateError String → Rule}
    (h : t.assemble pieces code = .value slot bound next) :
    ∃ (words : List String) (rest : List Piece),
      pieces = words.map .text ++ .value slot bound :: rest ∧
        ∀ child, next (.ok child) = t.assemble rest (code ++ String.join words ++ child) := by
  induction pieces generalizing code with
  | nil => cases h
  | cons piece pieces ih =>
      cases piece with
      | text word =>
          obtain ⟨words, rest, rfl, hnext⟩ := ih h
          exact ⟨word :: words, rest, rfl, fun child => by
            simp only [hnext, String.join_cons, String.append_assoc]⟩
      | value slot bound =>
          cases h
          exact ⟨[], pieces, rfl, fun child => by simp⟩
      | body slot form => cases h

theorem assemble_eq_statements {next : Except GenerateError String → Rule}
    (h : t.assemble pieces code = .statements slot next) :
    ∃ (words : List String) (form : BodyForm) (rest : List Piece),
      pieces = words.map .text ++ .body slot form :: rest ∧
        ∀ body, next (.ok body) =
          t.assemble rest (code ++ String.join words ++ form.text body) := by
  induction pieces generalizing code with
  | nil => cases h
  | cons piece pieces ih =>
      cases piece with
      | text word =>
          obtain ⟨words, form, rest, rfl, hnext⟩ := ih h
          exact ⟨word :: words, form, rest, rfl, fun body => by
            simp only [hnext, String.join_cons, String.append_assoc]⟩
      | value slot bound => cases h
      | body slot form =>
          cases h
          exact ⟨[], form, pieces, rfl, fun body => by simp⟩

end Template

namespace Surroundings

variable {s : Surroundings} {b : Block} {type : BlockType} {phrase : Phrase}
  {designs : List Design} {P : String → Phrase → Prop} (hdesigns : s.catalog.MadeOf designs)
  (step : ∀ id b, ∀ d ∈ designs, ∀ text, d.name = b.blockType →
    s.lookup id = .ok (b, d.blockType) →
    s.Fills P (s.ChainOf P) b d.blockType (d.template b s.registries).pieces text →
    P id ((d.template b s.registries).result text))
include hdesigns step

theorem Expands.exists_fills {rule : Rule} (h : s.Expands b type rule phrase) (t : Template)
    {pieces : List Piece} {code : String} (hrule : t.assemble pieces code = rule) :
    ∃ text, s.Fills P (s.ChainOf P) b type pieces text ∧ phrase = t.result (code ++ text) := by
  -- what is plugged in has been rendered by a template too
  have hblock : ∀ {id b type phrase}, s.lookup id = .ok (b, type) →
      (∀ t : Template, ∀ {pieces code}, t.assemble pieces code = type.rule b s.registries →
        ∃ text, s.Fills P (s.ChainOf P) b type pieces text ∧ phrase = t.result (code ++ text)) →
      P id phrase := by
    intro id b type phrase hlookup ih
    obtain ⟨d, hd, hname, rfl⟩ := hdesigns (s.lookup_eq_ok.1 hlookup).2
    obtain ⟨text, htext, rfl⟩ := ih (d.template b s.registries) rfl
    rw [String.empty_append]
    exact step id b d hd text hname hlookup htext
  induction h generalizing t pieces code with
  | @done b type phrase =>
      obtain ⟨words, rfl, hphrase⟩ := Template.assemble_eq_done hrule
      cases hphrase
      refine ⟨String.join words, ?_, rfl⟩
      simpa using Fills.words words (.nil (s := s) (b := b))
  | emptyInput hslot _ ih =>
      obtain ⟨words, rest, rfl, hnext⟩ := Template.assemble_eq_value hrule
      obtain ⟨text, htext, rfl⟩ := ih t (hnext _).symm
      exact ⟨_, .words words (.emptyInput hslot htext), by simp only [String.append_assoc]⟩
  | input hslot hlookup _ _ ihchild ih =>
      obtain ⟨words, rest, rfl, hnext⟩ := Template.assemble_eq_value hrule
      obtain ⟨text, htext, rfl⟩ := ih t (hnext _).symm
      exact ⟨_, .words words (.input hslot (hblock hlookup ihchild) htext),
        by simp only [String.append_assoc]⟩
  | emptyBody hslot _ ih =>
      obtain ⟨words, form, rest, rfl, hnext⟩ := Template.assemble_eq_statements hrule
      obtain ⟨text, htext, rfl⟩ := ih t (hnext _).symm
      exact ⟨_, .words words (.emptyBody hslot htext), by simp only [String.append_assoc]⟩
  | @body b type slot next head blocks phrase hslot hchain hfound _ _ ihblocks ih =>
      obtain ⟨words, form, rest, rfl, hnext⟩ := Template.assemble_eq_statements hrule
      obtain ⟨text, htext, rfl⟩ := ih t (hnext _).symm
      refine ⟨_, .words words (.body hslot ⟨blocks, hchain, fun e he => ?_, rfl⟩ htext),
        by simp only [String.append_assoc]⟩
      obtain ⟨⟨b₁, type₁⟩, hlookup⟩ := hfound e he
      exact hblock hlookup (ihblocks e he b₁ type₁ hlookup)

theorem ExpandsBlock.of_fills {id : String} (h : s.ExpandsBlock id phrase) : P id phrase := by
  obtain ⟨b, type, hlookup, hexpands⟩ := h
  obtain ⟨d, hd, hname, rfl⟩ := hdesigns (s.lookup_eq_ok.1 hlookup).2
  have hfills := hexpands.exists_fills hdesigns step (d.template b s.registries) rfl
  obtain ⟨text, htext, rfl⟩ := hfills
  rw [String.empty_append]
  exact step id b d hd text hname hlookup htext

end Surroundings

namespace Surroundings

theorem Fills.expandsBlock {s : Surroundings} {b : Block} {d : Design} {id text : String}
    (hlookup : s.lookup id = .ok (b, d.blockType))
    (h : s.Fills s.ExpandsBlock s.ExpandsChain b d.blockType (d.template b s.registries).pieces
      text) : s.ExpandsBlock id ((d.template b s.registries).result text) := by
  have hexpands := h.expands (t := d.template b s.registries) ""
  rw [String.empty_append] at hexpands
  exact ⟨b, d.blockType, hlookup, hexpands⟩

/-- The expansion of a block is the text of its template, with the expansions of its neighbours. -/
theorem ExpandsBlock.exists_fills {s : Surroundings} {designs : List Design}
    (hdesigns : s.catalog.MadeOf designs) {id : String} {phrase : Phrase}
    (h : s.ExpandsBlock id phrase) :
    ∃ b, ∃ d ∈ designs, ∃ text, d.name = b.blockType ∧ s.lookup id = .ok (b, d.blockType) ∧
      s.Fills s.ExpandsBlock s.ExpandsChain b d.blockType (d.template b s.registries).pieces text ∧
      phrase = (d.template b s.registries).result text := by
  obtain ⟨b, type, hlookup, hexpands⟩ := h
  obtain ⟨d, hd, hname, rfl⟩ := hdesigns (s.lookup_eq_ok.1 hlookup).2
  have hfills := hexpands.exists_fills (P := s.ExpandsBlock) hdesigns
    (fun _ _ _ _ _ _ hlookup hfills => hfills.expandsBlock hlookup)
    (d.template b s.registries) rfl
  obtain ⟨text, htext, rfl⟩ := hfills
  exact ⟨b, d, hd, text, hname, hlookup, htext, by rw [String.empty_append]⟩

variable {s : Surroundings} {phrase : Phrase} {designs : List Design}
  {reached : Role → String → Prop} {P : Role → String → Phrase → Prop}

/-- What holds of a reached block whenever it holds of what is plugged into it, which is reached
too, holds of all reached blocks. -/
theorem ExpandsBlock.induct (hdesigns : s.catalog.MadeOf designs) (hclosed : s.Closed reached)
    (step : ∀ role id b, ∀ d ∈ designs, ∀ text, reached role id → d.name = b.blockType →
      s.lookup id = .ok (b, d.blockType) →
      s.Fills
        (fun child phrase => s.ExpandsBlock child phrase ∧ reached .value child ∧
          P .value child phrase)
        (s.ChainOf fun id phrase => s.ExpandsBlock id phrase ∧ reached .chain id ∧
          P .chain id phrase)
        b d.blockType (d.template b s.registries).pieces text →
      P role id ((d.template b s.registries).result text))
    {role : Role} {id : String} (hid : reached role id) (h : s.ExpandsBlock id phrase) :
    P role id phrase := by
  refine (h.of_fills (P := fun id phrase => s.ExpandsBlock id phrase ∧
    ∀ role, reached role id → P role id phrase) hdesigns ?_).2 role hid
  intro id b d hd text hname hlookup hfills
  have hvisits := (d.template b s.registries).visits_rule
  have hedge : ∀ {role link child}, link ∈ (d.template b s.registries).links →
      b.target? link = some child → reached role id → reached link.role child :=
    fun hlink htarget hid =>
      hclosed hid ⟨b, d.blockType, hlookup, htarget, .inr ((hvisits.asks_iff _).2 hlink)⟩
  constructor
  · have hexpands := hfills.imp (fun _ _ _ _ _ h => h.1) fun _ _ _ _ _ h => h.imp fun _ _ h => h.1
    exact Fills.expandsBlock hlookup hexpands
  · intro role hid
    refine step role id b d hd text hid hname hlookup (hfills.imp ?_ ?_)
    · intro slot child phrase hslot htarget h
      have hchild := hedge hslot htarget hid
      exact ⟨h.1, hchild, h.2 .value hchild⟩
    · rintro slot head text hslot htarget ⟨blocks, hchain, hblocks, htext⟩
      have hknown : ∀ id ∈ blocks.map (·.1), ∃ found, s.lookup id = .ok found := by
        refine List.forall_mem_map.2 fun e he => ?_
        obtain ⟨⟨b₁, type₁, hlookup₁, -⟩, -⟩ := hblocks e he
        exact ⟨_, hlookup₁⟩
      have hreached := reached_of_chain hclosed hchain (hedge hslot htarget hid) hknown
      refine ⟨blocks, hchain, fun e he => ?_, htext⟩
      have hblock := hreached _ (List.mem_map_of_mem he)
      exact ⟨(hblocks e he).1, hblock, (hblocks e he).2 .chain hblock⟩

end Surroundings

end AgentBlocks
