import AgentBlocks.Proofs.Catalog.Inert
import AgentBlocks.Proofs.Walk.Layout
import AgentBlocks.Proofs.Workspace.Renaming

/-!
Programs of graphs that differ in their fields alone. The wiring of a graph decides how the texts of
its blocks are put together, so with inert fields the program has one skeleton whatever stands in
them. Text that is not inert, put into a field with choices, can open a bracket or a line.
-/
namespace AgentBlocks

open Text

/-- The block with nothing in its fields. -/
def Block.withoutFields (b : Block) : Block := { b with fields := .empty }

theorem Block.slots_of_withoutFields {b b' : Block} (h : b'.withoutFields = b.withoutFields) :
    b'.inputs = b.inputs ∧ b'.statements = b.statements := by
  have hinputs := congrArg Block.inputs h
  have hstatements := congrArg Block.statements h
  exact ⟨hinputs, hstatements⟩

namespace Workspace

/-- The graph with nothing in the fields of its blocks: their ids, types, wiring and positions. -/
def withoutFields (w : Workspace) : Workspace := ⟨w.blocks.mapValues Block.withoutFields⟩

variable {w w' : Workspace}

theorem block?_withoutFields (w : Workspace) (id : String) :
    w.withoutFields.block? id = (w.block? id).map Block.withoutFields :=
  Dict.get?_mapValues Block.withoutFields w.blocks id

theorem topLevelIds_withoutFields (w : Workspace) :
    w.withoutFields.topLevelIds = w.topLevelIds := by
  have hpositions : w.withoutFields.topLevelPositions = w.topLevelPositions := by
    simp only [topLevelPositions, withoutFields, Dict.mapValues, List.filter_map, List.map_map]
    rfl
  rw [topLevelIds, hpositions, topLevelIds]

variable (hsame : w.withoutFields = w'.withoutFields)
include hsame

theorem exists_block_of_withoutFields {id : String} {b : Block} (hb : w.block? id = some b) :
    ∃ b', w'.block? id = some b' ∧ b'.withoutFields = b.withoutFields := by
  have hblock := w'.block?_withoutFields id
  rw [← hsame, block?_withoutFields, hb, Option.map_some] at hblock
  exact Option.map_eq_some_iff.1 hblock.symm

theorem Chain.of_withoutFields {id : String} {ids : List String} (h : w.Chain id ids) :
    w'.Chain id ids := by
  have hnext : ∀ id, (w.block? id).bind (·.next) = (w'.block? id).bind (·.next) := by
    intro id
    have hblocks := congrArg (·.bind (·.next))
      ((w.block?_withoutFields id).symm.trans (hsame ▸ w'.block?_withoutFields id))
    simpa only [Option.bind_map, Function.comp_def, Block.withoutFields] using hblocks
  induction h with
  | last hend => exact .last (hnext _ ▸ hend)
  | cons hend _ ih => exact .cons (hnext _ ▸ hend) ih

end Workspace

namespace Surroundings

variable {s s' : Surroundings} {block block' : String → Phrase → Prop}
  {chain chain' : String → String → Prop} {b b' : Block} {type : BlockType}
  {pieces pieces' : List Piece} {text : String}

/-- A text for pieces has a counterpart for alike pieces of a block with the same slots, when what
is plugged in has one. -/
theorem Fills.exists_sketch (h : s.Fills block chain b type pieces text)
    (hpieces : List.Forall₂ Piece.Alike pieces pieces') (hwidth : s'.indentWidth = s.indentWidth)
    (hslots : b'.withoutFields = b.withoutFields)
    (hdefault : ∀ slot, ∃ ms, Sketch (type.defaultFor slot) ms)
    (hblock : ∀ id phrase, block id phrase →
      ∃ phrase', block' id phrase' ∧ Text.Alike phrase.code phrase'.code)
    (hchain : ∀ head text, chain head text → ∃ text', chain' head text' ∧ Text.Alike text text') :
    ∃ text' ms, s'.Fills block' chain' b' type pieces' text' ∧ Sketch text ms ∧
      Sketch text' ms := by
  obtain ⟨hinputs, hstatements⟩ := Block.slots_of_withoutFields hslots
  induction h generalizing pieces' with
  | nil =>
      cases hpieces
      exact ⟨"", [], .nil, .empty, .empty⟩
  | text word _ ih =>
      obtain ⟨_, rest', hword, hrest, rfl⟩ := List.forall₂_cons_left_iff.1 hpieces
      obtain ⟨code', ns, hfills, hcode, hcode'⟩ := ih hrest
      cases hword with
      | text hword =>
          obtain ⟨ms, hleft, hright⟩ := hword.sketch
          exact ⟨_, _, .text _ hfills, hleft.append hcode, hright.append hcode'⟩
  | emptyInput hslot _ ih =>
      obtain ⟨_, rest', hvalue, hrest, rfl⟩ := List.forall₂_cons_left_iff.1 hpieces
      obtain ⟨code', ns, hfills, hcode, hcode'⟩ := ih hrest
      cases hvalue
      obtain ⟨ms, hms⟩ := hdefault _
      exact ⟨_, _, .emptyInput (hinputs ▸ hslot) hfills, hms.append hcode, hms.append hcode'⟩
  | input hslot hchild _ ih =>
      obtain ⟨_, rest', hvalue, hrest, rfl⟩ := List.forall₂_cons_left_iff.1 hpieces
      obtain ⟨code', ns, hfills, hcode, hcode'⟩ := ih hrest
      cases hvalue
      obtain ⟨phrase', hchild', halike⟩ := hblock _ _ hchild
      obtain ⟨ms, hleft, hright⟩ := halike.sketch
      exact ⟨_, _, .input (hinputs ▸ hslot) hchild' hfills, (hleft.enclose _ _).append hcode,
        (hright.enclose _ _).append hcode'⟩
  | @emptyBody slot form rest code hslot _ ih =>
      obtain ⟨_, rest', hbody, hrest, rfl⟩ := List.forall₂_cons_left_iff.1 hpieces
      obtain ⟨code', ns, hfills, hcode, hcode'⟩ := ih hrest
      cases hbody
      obtain ⟨ms, hms⟩ := form.exists_sketch_empty
      exact ⟨_, _, .emptyBody (hstatements ▸ hslot) hfills, hms.append hcode, hms.append hcode'⟩
  | @body slot form rest code head text hslot hhead _ ih =>
      obtain ⟨_, rest', hbody, hrest, rfl⟩ := List.forall₂_cons_left_iff.1 hpieces
      obtain ⟨code', ns, hfills, hcode, hcode'⟩ := ih hrest
      cases hbody
      obtain ⟨text', hhead', halike⟩ := hchain _ _ hhead
      obtain ⟨ms, hleft, hright⟩ := (form.alike_text (halike.indent s.indentWidth)).sketch
      refine ⟨_, _, .body (hstatements ▸ hslot) hhead' hfills, hleft.append hcode, ?_⟩
      rw [hwidth]
      exact hright.append hcode'

/-- A text that begins with a word or a value is not empty. -/
theorem Fills.ne_empty {piece : Piece} (h : s.Fills block chain b type (piece :: pieces) text)
    (hpiece : piece.isBody = false) (hword : ∀ word, piece = .text word → word ≠ "")
    (hdefault : ∀ slot, type.defaultFor slot ≠ "")
    (hblock : ∀ id phrase, block id phrase → phrase.code ≠ "") : text ≠ "" := by
  cases h with
  | text word _ => simp [hword word rfl]
  | emptyInput _ _ => simp [hdefault]
  | input _ hchild _ =>
      have hcode := hblock _ _ hchild
      unfold Bound.enclose
      split <;> simp [hcode]
  | emptyBody _ _ => cases hpiece
  | body _ _ _ => cases hpiece

/-- In another graph the block has an expansion with the same skeleton. -/
def HasAlike (s : Surroundings) (w' : Workspace) (id : String) (phrase : Phrase) : Prop :=
  ∃ phrase', { s with workspace := w' }.ExpandsBlock id phrase' ∧
    Text.Alike phrase.code phrase'.code

theorem exists_alike_blocks {w' : Workspace} {blocks : List (String × Phrase)}
    (h : ∀ e ∈ blocks, s.HasAlike w' e.1 e.2) :
    ∃ blocks' : List (String × Phrase), blocks'.map (·.1) = blocks.map (·.1) ∧
      (∀ e ∈ blocks', { s with workspace := w' }.ExpandsBlock e.1 e.2) ∧
      List.Forall₂ Text.Alike (blocks.map (·.2.code)) (blocks'.map (·.2.code)) := by
  induction blocks with
  | nil => exact ⟨[], rfl, nofun, .nil⟩
  | cons e rest ih =>
      obtain ⟨⟨phrase', hblock, halike⟩, hrest⟩ := List.forall_mem_cons.1 h
      obtain ⟨blocks', hids, hblocks, hcodes⟩ := ih hrest
      exact ⟨(e.1, phrase') :: blocks', by simp [hids], List.forall_mem_cons.2 ⟨hblock, hblocks⟩,
        .cons halike hcodes⟩

theorem filter_of_alike {as bs : List String} (h : List.Forall₂ Text.Alike as bs) :
    as.filter (!·.isEmpty) = as ∧ bs.filter (!·.isEmpty) = bs := by
  induction h with
  | nil => exact ⟨rfl, rfl⟩
  | cons halike _ ih => simp [halike.left, halike.right, ih]

section Fields

variable {w' : Workspace} (hsame : s.workspace.withoutFields = w'.withoutFields)
include hsame

theorem ChainOf.exists_alike {head : String} (h : s.ChainOf (s.HasAlike w') head text) :
    ∃ text', { s with workspace := w' }.ExpandsChain head text' ∧ Text.Alike text text' := by
  obtain ⟨blocks, hchain, hblocks, rfl⟩ := h
  obtain ⟨blocks', hids, hblocks', hcodes⟩ := exists_alike_blocks hblocks
  have hne : blocks.map (·.2.code) ≠ [] := by
    intro hempty
    rw [List.map_eq_nil_iff.1 hempty] at hchain
    cases hchain
  obtain ⟨hfilter, hfilter'⟩ := filter_of_alike hcodes
  refine ⟨chainText blocks', ⟨blocks', ?_, hblocks', rfl⟩, ?_⟩
  · rw [hids]
    exact hchain.of_withoutFields hsame
  · rw [chainText, chainText, hfilter, hfilter']
    exact .intercalate hcodes hne (by rfl)

variable (hs : s.catalog = .standard) (hr : s.registries.Coherent)
  (hinert : ∀ id b, s.workspace.block? id = some b → b.InertFields s.catalog s.registries)
  (hinert' : ∀ id b, w'.block? id = some b → b.InertFields s.catalog s.registries)
include hs hr hinert hinert'

/-- A block expands to texts with one skeleton in graphs that differ in inert fields. -/
theorem ExpandsBlock.hasAlike {id : String} {phrase : Phrase} (h : s.ExpandsBlock id phrase) :
    s.HasAlike w' id phrase := by
  refine h.of_fills (hs ▸ Catalog.madeOf_standard) ?_
  intro id b d hd text hname hlookup hfills
  obtain ⟨hb, htype⟩ := s.lookup_eq_ok.1 hlookup
  obtain ⟨b', hb', hslots⟩ := Workspace.exists_block_of_withoutFields hsame hb
  have hname' : d.name = b'.blockType := hname.trans (congrArg Block.blockType hslots).symm
  have hlookup' : { s with workspace := w' }.lookup id = .ok (b', d.blockType) :=
    (lookup_eq_ok _).2 ⟨hb', by rwa [← hname', hname]⟩
  have hpieces := Standard.keepsSkeleton_designs hr d hd b b'
    (Block.InertFields.inertIn (hs ▸ hinert id b hb) hd hname)
    (Block.InertFields.inertIn (hs ▸ hinert' id b' hb') hd hname')
  have hdefault := fun slot => (Standard.inline_defaultFor d hd slot).tidy
  have hwidth : { s with workspace := w' }.indentWidth = s.indentWidth := rfl
  have hblock : ∀ id phrase, s.HasAlike w' id phrase → ∃ phrase',
      ({ s with workspace := w' }.ExpandsBlock id phrase' ∧ phrase'.code ≠ "") ∧
        Text.Alike phrase.code phrase'.code := by
    rintro id phrase ⟨phrase', hblock, halike⟩
    exact ⟨phrase', ⟨hblock, halike.right⟩, halike⟩
  obtain ⟨text', ms, hfills', hsketch, hsketch'⟩ := hfills.exists_sketch hpieces hwidth hslots
    (fun slot => (hdefault slot).exists_sketch) hblock fun _ _ hchain => hchain.exists_alike hsame
  have hexpands := (hfills'.imp (fun _ _ _ _ _ h => h.1) fun _ _ _ _ _ h => h).expands
    (t := d.template b' s.registries) ""
  rw [String.empty_append] at hexpands
  refine ⟨_, ⟨b', d.blockType, hlookup', hexpands⟩, ?_⟩
  rw [Template.code_result, Template.code_result]
  obtain ⟨piece, rest, heq, hleads⟩ := Standard.leads_designs d hd b s.registries
  obtain ⟨piece', rest', heq', hleads'⟩ := Standard.leads_designs d hd b' s.registries
  rw [heq] at hpieces hfills
  rw [heq'] at hpieces hfills'
  obtain ⟨hword, hword'⟩ := (List.forall₂_cons.1 hpieces).1.ne_empty
  exact ⟨hfills.ne_empty hleads hword (fun slot => (hdefault slot).ne_empty)
      fun _ _ ⟨_, _, halike⟩ => halike.left,
    hfills'.ne_empty hleads' hword' (fun slot => (hdefault slot).ne_empty) fun _ _ h => h.2,
    ms, hsketch, hsketch'⟩

theorem ExpandsChain.exists_alike {head : String} (h : s.ExpandsChain head text) :
    ∃ text', { s with workspace := w' }.ExpandsChain head text' ∧ Text.Alike text text' := by
  obtain ⟨blocks, hchain, hblocks, rfl⟩ := h
  refine ChainOf.exists_alike hsame ⟨blocks, hchain, fun e he => ?_, rfl⟩
  exact (hblocks e he).hasAlike hsame hs hr hinert hinert'

end Fields

end Surroundings

theorem Registries.Coherent.alike_declarations {r : Registries} (hr : r.Coherent) :
    List.Forall₂ Text.Alike r.declarations r.declarations := by
  refine List.forall₂_same.2 fun code hcode => ?_
  have htidy := hr.tidy_declarations code hcode
  obtain ⟨ms, hms⟩ := htidy.exists_sketch
  exact ⟨htidy.ne_empty, htidy.ne_empty, ms, hms, hms⟩

/-- The chains of programs of graphs that differ in inert fields. -/
theorem alike_chains {c : Catalog} (hc : c = .standard) {w w' : Workspace} {r : Registries}
    (hr : r.Coherent) {width : Nat} (hsame : w.withoutFields = w'.withoutFields)
    (hinert : ∀ id b, w.block? id = some b → b.InertFields c r)
    (hinert' : ∀ id b, w'.block? id = some b → b.InertFields c r) {heads texts texts' : List String}
    (h : List.Forall₂ (Surroundings.ExpandsChain ⟨c, w, r, width⟩) heads texts)
    (h' : List.Forall₂ (Surroundings.ExpandsChain ⟨c, w', r, width⟩) heads texts') :
    List.Forall₂ Text.Alike texts texts' := by
  induction h generalizing texts' with
  | nil =>
      cases h'
      exact .nil
  | cons hhead _ ih =>
      obtain ⟨text', rest', hhead', hrest', rfl⟩ := List.forall₂_cons_left_iff.1 h'
      obtain ⟨_, hexpands, halike⟩ := hhead.exists_alike hsame hc hr hinert hinert'
      cases hhead'.unique hexpands
      exact .cons halike (ih hrest')

/-- Programs of graphs that differ in their fields alone. As long as what stands in the program as
it is has no line feed, no square bracket and no open literal in it, the programs have equally many
lines, and outside of literals the same square brackets. -/
theorem generate_withoutFields (edits : List RegistryEdit) {w w' : Workspace}
    {options : GenerateOptions} (hsame : w.withoutFields = w'.withoutFields)
    (hinert : ∀ id b, w.block? id = some b →
      b.InertFields .standard (RegistryEdit.run .empty edits))
    (hinert' : ∀ id b, w'.block? id = some b →
      b.InertFields .standard (RegistryEdit.run .empty edits)) {text text' : String}
    (h : generate .standard options w (RegistryEdit.run .empty edits) = .ok text)
    (h' : generate .standard options w' (RegistryEdit.run .empty edits) = .ok text') :
    (lines text.toList).length = (lines text'.toList).length ∧
      squareBrackets text = squareBrackets text' := by
  have hr := RegistryEdit.coherent_run Registries.coherent_empty edits
  obtain ⟨texts, htexts, rfl⟩ := expandsChain_of_generate Catalog.pure_standard (.refl w) h
  obtain ⟨texts', htexts', rfl⟩ := expandsChain_of_generate Catalog.pure_standard (.refl w') h'
  have hheads : w'.topLevelIds = w.topLevelIds := by
    rw [← w'.topLevelIds_withoutFields, ← hsame, w.topLevelIds_withoutFields]
  have hchains := alike_chains rfl hr hsame hinert hinert' htexts (hheads ▸ htexts')
  obtain ⟨hfilter, hfilter'⟩ := Surroundings.filter_of_alike hchains
  rw [hfilter, hfilter']
  have hdeclarations : List.Forall₂ Text.Alike
      (if options.includeDeclarations then (RegistryEdit.run .empty edits).declarations else [])
      (if options.includeDeclarations then (RegistryEdit.run .empty edits).declarations
        else []) := by
    split
    · exact hr.alike_declarations
    · exact .nil
  exact layout_eq_sections (List.rel_append hdeclarations hchains)

/-- A command that shows a color. -/
def shownColor (color : String) : Workspace :=
  Workspace.empty
    |>.insert "show" ((Block.new "output_show").withInput "VALUE" "color" |>.atTopLevel 0 0)
    |>.insert "color" ((Block.new "color_constant").withField "COLOR" (.text color))

theorem inertFields_shownColor {color : String} (h : Inert color) (r : Registries) :
    ∀ id b, (shownColor color).block? id = some b → b.InertFields .standard r := by
  have hunset : ∀ field, ((Block.new "output_show").withInput "VALUE" "color"
      |>.atTopLevel 0 0).fieldText? field = none := fun _ => rfl
  intro id b hb field _ _ s hs
  simp only [shownColor, Workspace.insert, Workspace.block?, Dict.get?_insert] at hb
  split at hb
  · cases hb
    simp only [Block.fieldText?, Block.field?, Block.withField, Dict.get?_insert] at hs
    split at hs
    · cases hs
      exact .inr h
    · cases hs
  · split at hb
    · cases hb
      rw [hunset] at hs
      cases hs
    · cases hb

theorem generate_shownColor :
    generate .standard .default (shownColor "red") .empty = .ok "show red" ∧
      generate .standard .default (shownColor "dark \"[\"") .empty = .ok "show dark \"[\"" ∧
      generate .standard .default (shownColor "red\n[") .empty = .ok "show red\n[" := by
  decide +kernel

theorem generate_withoutFields_shownColor :
    (shownColor "red").withoutFields = (shownColor "dark \"[\"").withoutFields ∧
      generate .standard .default (shownColor "red") .empty = .ok "show red" ∧
      generate .standard .default (shownColor "dark \"[\"") .empty = .ok "show dark \"[\"" ∧
      squareBrackets "show red" = squareBrackets "show dark \"[\"" := by
  obtain ⟨htext, htext', -⟩ := generate_shownColor
  have hsame : (shownColor "red").withoutFields =
      (shownColor "dark \"[\"").withoutFields := by
    decide +kernel
  exact ⟨hsame, htext, htext', (generate_withoutFields [] hsame
    (inertFields_shownColor (by decide) _) (inertFields_shownColor (by decide) _) htext
    htext').2⟩

/-- A color that is no offered choice and opens a bracket on a line of its own stands in the program
as it is. -/
theorem not_generate_withoutFields : ¬∀ (edits : List RegistryEdit) (w w' : Workspace)
    (options : GenerateOptions) (text text' : String), w.withoutFields = w'.withoutFields →
      generate .standard options w (RegistryEdit.run .empty edits) = .ok text →
      generate .standard options w' (RegistryEdit.run .empty edits) = .ok text' →
      (lines text.toList).length = (lines text'.toList).length ∧
        squareBrackets text = squareBrackets text' := by
  intro h
  obtain ⟨htext, -, htext'⟩ := generate_shownColor
  have hlayout := h [] (shownColor "red") (shownColor "red\n[") .default _ _ (by decide +kernel)
    htext htext'
  exact absurd hlayout.2 (by decide)

end AgentBlocks
