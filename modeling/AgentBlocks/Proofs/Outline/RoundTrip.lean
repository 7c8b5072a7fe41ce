import AgentBlocks.Proofs.Outline.Nesting
import AgentBlocks.Proofs.Walk.Locality

/-!
Programs and the outlines of their block graphs. The nesting of the statements is read back from a
program, so two block graphs with the same program have the same statements in the same bodies.
-/
namespace AgentBlocks

open Text

/-- The kind of the blocks that belong in a role. -/
def Role.kind : Role → ResultKind
  | .chain => .statement
  | .value => .value

namespace Surroundings

open Outline

/-- The blocks that the walks from the top-level blocks come to, in their roles. -/
def Placed (s : Surroundings) (role : Role) (id : String) : Prop :=
  ∃ head ∈ s.workspace.topLevelIds, s.Reached head role id

/-- Statements stand in chains and expressions in value slots, a field that offers choices is absent
or holds one of them, and no name is reserved. -/
structure Regular (s : Surroundings) : Prop where
  kind : ∀ {role id b type}, s.Placed role id → s.lookup id = .ok (b, type) →
    type.kind = role.kind
  chosen : ∀ {role id b}, s.Placed role id → s.workspace.block? id = some b →
    ∀ {field choices text}, s.catalog.fieldOptions? s.registries b.blockType field = some choices →
      b.fieldText? field = some text → text ∈ choices
  unreserved : ∀ {role id b}, s.Placed role id → s.workspace.block? id = some b → b.Unreserved

variable {s : Surroundings}

theorem closed_placed : s.Closed s.Placed := by
  rintro role id link child ⟨head, hhead, hreached⟩ hedge
  exact ⟨head, hhead, s.closed_reached head hreached hedge⟩

theorem Regular.chosen_block (h : s.Regular) {role : Role} {id : String} {b : Block}
    (hid : s.Placed role id) (hb : s.workspace.block? id = some b) :
    b.Chosen s.catalog s.registries :=
  fun _ _ _ hchoices _ htext => .inr (h.chosen hid hb hchoices htext)

section Regular

variable {b : Block} {type : BlockType} {id head code : String} {phrase : Phrase}
  (hs : s.catalog = .standard) (hr : s.registries.Coherent) (hregular : s.Regular)
include hs hr hregular

theorem Regular.framed {role : Role} {d : Design} (hd : d ∈ Standard.designs)
    (hname : d.name = b.blockType) (hid : s.Placed role id)
    (hlookup : s.lookup id = .ok (b, type)) : (d.template b s.registries).Framed := by
  have hchosen := hregular.chosen_block hid (s.lookup_eq_ok.1 hlookup).1
  rw [hs] at hchosen
  exact Standard.closes_designs hr d hd b (hchosen.admits hd hname)

theorem ExpandsBlock.tidy_of_placed {role : Role} (h : s.ExpandsBlock id phrase)
    (hid : s.Placed role id) : Tidy phrase.code :=
  h.tidy hs hr closed_placed (fun _ _ _ hid hb => hregular.chosen_block hid hb) hid

/-- Expressions stand on a single line. -/
theorem ExpandsBlock.inline (h : s.ExpandsBlock id phrase) (hid : s.Placed .value id) :
    Inline phrase.code := by
  refine h.induct (P := fun role _ phrase => role = .value → Inline phrase.code)
    (hs ▸ Catalog.madeOf_standard) closed_placed ?_ hid rfl
  rintro role id b d hd text hid hname hlookup hfills rfl
  have hframed := hregular.framed hs hr hd hname hid hlookup
  have hkind : d.kind = .value := hregular.kind hid hlookup
  obtain ⟨htail, hends⟩ := Standard.ends_designs d hd hkind b s.registries
  have hdefault := Standard.inline_defaultFor d hd
  have htidy : Tidy text := hfills.run (fun slot => (hdefault slot).tidy)
    (fun _ _ h => (h.2.2 rfl).tidy)
    (fun _ _ ⟨_, hchain, hblocks, htext⟩ => htext ▸ tidy_chainText hchain fun e he =>
      (hblocks e he).1.tidy_of_placed hs hr hregular (hblocks e he).2.1) hframed.reads
  rw [Template.code_result]
  exact hfills.inline hdefault (fun _ _ h => h.2.2 rfl) htidy hframed.inline htail hends

/-- A statement is read as its outline. -/
theorem ExpandsBlock.outlines (h : s.ExpandsBlock id phrase) (hid : s.Placed .chain id) :
    s.OutlinesBlock id phrase := by
  refine h.induct (P := fun role id phrase => role = .chain → s.OutlinesBlock id phrase)
    (hs ▸ Catalog.madeOf_standard) closed_placed ?_ hid rfl
  rintro role id b d hd text hid hname hlookup hfills rfl
  have hframed := hregular.framed hs hr hd hname hid hlookup
  have hkind : d.kind = .statement := hregular.kind hid hlookup
  have hunreserved := hregular.unreserved hid (s.lookup_eq_ok.1 hlookup).1
  obtain ⟨ending, htail, hopens⟩ := Standard.begun_designs d hd hkind b s.registries hunreserved
  have hdefault := Standard.inline_defaultFor d hd
  have hpieces : s.Fills (fun child phrase => s.ExpandsBlock child phrase ∧ Inline phrase.code)
      s.OutlinesChain b d.blockType
      ((d.template b s.registries).line ++ ending.pieces) text := by
    rw [← htail, Template.line_append_tail]
    refine hfills.imp (fun _ _ _ _ _ h => ⟨h.1, h.1.inline hs hr hregular h.2.1⟩)
      fun _ _ _ _ _ h => ChainOf.outlines (h.imp fun _ _ h => ⟨?_, h.2.2 rfl⟩)
    exact h.1.tidy_of_placed hs hr hregular h.2.1
  obtain ⟨head, code, hline, hcode, rfl⟩ := fills_append.1 hpieces
  have hfeed := hline.feed_not_mem hdefault (fun _ _ h => h.2)
    (fun _ => Template.isBody_of_mem_line) hframed.inline
  have hlast : ending = .optional → head.toList.getLast? ≠ some '[' := by
    rintro rfl
    exact (hline.tidy_line hframed htail (fun slot => (hdefault slot).tidy)
      fun _ _ h => h.2.tidy).getLast?_ne
  have hbare : ending = .branches → ¬"[] ".toList <:+ head.toList := by
    rintro rfl
    exact hline.not_suffix_of_opens hdefault (fun _ _ h => h.2) hopens
  exact outlines_of_fills hd hlookup htail hline hcode (fun _ _ h => h.1)
    (hopens.begins hline hfeed) hlast hbare

theorem ExpandsChain.outlines (h : s.ExpandsChain head code) (hhead : s.Placed .chain head) :
    s.OutlinesChain head code := by
  obtain ⟨blocks, hchain, hblocks, rfl⟩ := h
  have hplaced := reached_of_chain closed_placed hchain hhead <| List.forall_mem_map.2 fun e he =>
    let ⟨b, type, hlookup, _⟩ := hblocks e he
    ⟨(b, type), hlookup⟩
  refine ChainOf.outlines ⟨blocks, hchain, fun e he => ?_, rfl⟩
  have hid := hplaced e.1 (List.mem_map_of_mem he)
  exact ⟨(hblocks e he).tidy_of_placed hs hr hregular hid,
    (hblocks e he).outlines hs hr hregular hid⟩

end Regular

end Surroundings

open Surroundings Outline

end AgentBlocks
