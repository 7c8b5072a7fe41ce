import AgentBlocks.Proofs.Outline.RoundTrip
import AgentBlocks.Proofs.Text.Literal
import AgentBlocks.Proofs.Workspace.TopLevel

/-!
Texts that programs quote. The literal of a text block stands in the code of every block that the
text block is plugged into, directly or within others, and at last in the program.
-/
namespace AgentBlocks

open Text

variable {piece : List Char}

theorem Bound.infix_enclose {code : String} (h : piece <:+: code.toList) (bound : Bound)
    (p : Precedence) : piece <:+: (bound.enclose code p).toList := by
  unfold enclose
  split
  · exact infix_append_left (infix_append_right h "(") ")"
  · exact h

theorem BodyForm.infix_text {body : String} (hpiece : piece ≠ []) (h : piece <:+: body.toList)
    (form : BodyForm) : piece <:+: (form.text body).toList := by
  have hbody : ¬body.isEmpty = true := by
    rw [String.isEmpty_iff]
    rintro rfl
    exact hpiece (List.infix_nil.1 h)
  have hbrackets : piece <:+: (inBrackets body).toList := by
    rw [inBrackets, if_neg hbody]
    exact infix_append_left (infix_append_right h "[\n") "\n]"
  cases form with
  | bracketed => exact hbrackets
  | optional =>
      rw [text, if_neg hbody]
      exact infix_append_right hbrackets " "
  | ownLines =>
      rw [text, if_neg hbody]
      exact infix_append_right h "\n"
  | plain => exact h

namespace Surroundings

variable {s : Surroundings} {b : Block} {type : BlockType} {id child : String}

theorem infix_chainText {blocks : List (String × Phrase)} {e : String × Phrase}
    (hpiece : piece ≠ []) (he : e ∈ blocks) (h : piece <:+: e.2.code.toList) :
    piece <:+: (chainText blocks).toList := by
  have hcode : e.2.code ≠ "" := by
    intro hempty
    rw [hempty] at h
    exact hpiece (List.infix_nil.1 h)
  refine h.trans (infix_intercalate _ (List.mem_filter.2 ⟨List.mem_map_of_mem he, ?_⟩))
  simpa using hcode

theorem infix_chainText_cons {blocks : List (String × Phrase)} (e : String × Phrase)
    (h : piece <:+: (chainText blocks).toList) : piece <:+: (chainText (e :: blocks)).toList := by
  unfold chainText at h ⊢
  rw [List.map_cons, List.filter_cons]
  split
  · cases hcodes : (blocks.map (·.2.code)).filter (!·.isEmpty) with
    | nil =>
        rw [hcodes, String.intercalate_nil] at h
        rw [List.infix_nil.1 h]
        exact List.nil_infix
    | cons next codes =>
        rw [hcodes] at h
        rw [String.intercalate_cons_cons]
        exact infix_append_right h _
  · exact h

/-- The piece stands in what a block is rendered to: in a chain that is the text from the block on,
else it is the code of the block. -/
def Shows (s : Surroundings) (piece : List Char) (role : Role) (id : String) : Prop :=
  match role with
  | .chain => ∀ text, s.ExpandsChain id text → piece <:+: text.toList
  | .value => ∀ phrase, s.ExpandsBlock id phrase → piece <:+: phrase.code.toList

theorem edge_of_template (hs : s.catalog = .standard) {role : Role} {link : Link} {t : Template}
    (hb : s.workspace.block? id = some b)
    (ht : Standard.template? b.blockType b s.registries = some t) (hlink : link ∈ t.links)
    (htarget : b.target? link = some child) : s.Edge role id link child := by
  obtain ⟨d, hfind, rfl⟩ := Option.map_eq_some_iff.1 ht
  have htype : s.catalog.type? b.blockType = some d.blockType := by
    rw [hs, Standard.type?_standard, hfind, Option.map_some]
  refine ⟨b, d.blockType, s.lookup_eq_ok.2 ⟨hb, htype⟩, htarget, .inr ?_⟩
  exact ((d.template b s.registries).visits_rule.asks_iff link).2 hlink

theorem Fills.shows {link : Link} {pieces : List Piece} {text : String} (hpiece : Unbroken piece)
    (h : s.Fills s.ExpandsBlock s.ExpandsChain b type pieces text)
    (hlink : link ∈ pieces.filterMap Piece.link?) (htarget : b.target? link = some child)
    (hchild : s.Shows piece link.role child) : piece <:+: text.toList := by
  induction h with
  | nil => cases hlink
  | text word _ ih => exact infix_append_right (ih hlink) word
  | emptyInput hslot _ ih =>
      rcases List.mem_cons.1 hlink with rfl | hlink
      · cases hslot.symm.trans htarget
      · exact infix_append_right (ih hlink) _
  | input hslot hblock _ ih =>
      rcases List.mem_cons.1 hlink with rfl | hlink
      · cases hslot.symm.trans htarget
        exact infix_append_left (Bound.infix_enclose (hchild _ hblock) _ _) _
      · exact infix_append_right (ih hlink) _
  | emptyBody hslot _ ih =>
      rcases List.mem_cons.1 hlink with rfl | hlink
      · cases hslot.symm.trans htarget
      · exact infix_append_right (ih hlink) _
  | body hslot hchain _ ih =>
      rcases List.mem_cons.1 hlink with rfl | hlink
      · cases hslot.symm.trans htarget
        have hbody := hpiece.infix_indent (hchild _ hchain) s.indentWidth
        exact infix_append_left (BodyForm.infix_text hpiece.filled hbody _) _
      · exact infix_append_right (ih hlink) _

/-- What the code of a block shows is shown by the chain that starts at it. -/
theorem shows_chain (hpiece : piece ≠ []) (h : s.Shows piece .value id) :
    s.Shows piece .chain id := by
  intro text hchain
  obtain ⟨phrase, rest, hblock, rfl, -⟩ := hchain.uncons
  exact infix_chainText hpiece List.mem_cons_self (h _ hblock)

theorem shows_of_edge {designs : List Design} (hdesigns : s.catalog.MadeOf designs)
    (hpiece : Unbroken piece) {role : Role} {link : Link} (hedge : s.Edge role id link child)
    (hchild : s.Shows piece link.role child) : s.Shows piece role id := by
  obtain ⟨b, type, hlookup, htarget, ⟨rfl, rfl⟩ | hasks⟩ := hedge
  · -- the rest of the chain
    intro text hchain
    obtain ⟨phrase, rest, -, rfl, hnext⟩ := hchain.uncons
    have hchild' : (s.workspace.block? id).bind (·.next) = some child := by
      rw [(s.lookup_eq_ok.1 hlookup).1]
      exact htarget
    rw [hchild'] at hnext
    rcases hnext with ⟨hnone, -⟩ | ⟨next, hnext, hrest, hblocks⟩
    · cases hnone
    · cases hnext
      exact infix_chainText_cons _ (hchild _ ⟨rest, hrest, hblocks, rfl⟩)
  · have hblock : s.Shows piece .value id := by
      intro phrase hexpands
      obtain ⟨b', d, hd, text, -, hlookup', hfills, rfl⟩ := hexpands.exists_fills hdesigns
      cases hlookup.symm.trans hlookup'
      have hlink := ((d.template b s.registries).visits_rule.asks_iff link).1 hasks
      rw [Template.code_result]
      exact hfills.shows hpiece hlink htarget hchild
    cases role with
    | chain => exact shows_chain hpiece.filled hblock
    | value => exact hblock

theorem Route.shows {designs : List Design} (hdesigns : s.catalog.MadeOf designs)
    (hpiece : Unbroken piece) {role role' : Role} {id id' : String} {steps : List (Link × String)}
    (h : s.Route role id steps role' id') (hend : s.Shows piece role' id') :
    s.Shows piece role id := by
  induction h with
  | stop role id => exact hend
  | step hedge _ ih => exact shows_of_edge hdesigns hpiece hedge (ih hend)

theorem shows_literal (hs : s.catalog = .standard) (hb : s.workspace.block? id = some b)
    (htype : b.blockType = "text") (role : Role) :
    s.Shows (literal ((b.fieldText? "TEXT").getD "")).toList role id := by
  have hvalue : s.Shows (literal ((b.fieldText? "TEXT").getD "")).toList .value id := by
    intro phrase hexpands
    obtain ⟨b', d, hd, text, hname, hlookup, hfills, rfl⟩ :=
      hexpands.exists_fills (hs ▸ Catalog.madeOf_standard)
    cases hb.symm.trans (s.lookup_eq_ok.1 hlookup).1
    have htemplate : Standard.template? d.name b s.registries =
        some (.word (literal ((b.fieldText? "TEXT").getD ""))) := by
      rw [hname, htype]
      rfl
    rw [Standard.template?, Standard.find?_designs hd, Option.map_some,
      Option.some.injEq] at htemplate
    rw [htemplate] at hfills ⊢
    rw [Template.code_result, hfills.eq_text]
  cases role with
  | chain => exact shows_chain (unbroken_literal _).filled hvalue
  | value => exact hvalue

theorem Placed.shows_literal (hs : s.catalog = .standard) {role : Role} (h : s.Placed role id)
    (hb : s.workspace.block? id = some b) (htype : b.blockType = "text") :
    ∃ head ∈ s.workspace.topLevelIds,
      s.Shows (literal ((b.fieldText? "TEXT").getD "")).toList .chain head := by
  obtain ⟨head, hhead, steps, hroute⟩ := h
  exact ⟨head, hhead, hroute.shows (hs ▸ Catalog.madeOf_standard) (unbroken_literal _)
    (Surroundings.shows_literal hs hb htype role)⟩

end Surroundings

theorem forall₂_exists_of_mem {α β : Type} {r : α → β → Prop} {as : List α} {bs : List β}
    (h : List.Forall₂ r as bs) {a : α} (ha : a ∈ as) : ∃ b ∈ bs, r a b := by
  induction h with
  | nil => cases ha
  | cons hab _ ih =>
      rcases List.mem_cons.1 ha with rfl | ha
      · exact ⟨_, List.mem_cons_self, hab⟩
      · obtain ⟨b, hb, hr⟩ := ih ha
        exact ⟨b, List.mem_cons_of_mem _ hb, hr⟩

theorem infix_of_generate {c : Catalog} (hc : c = .standard) {options : GenerateOptions}
    {w : Workspace} {r : Registries} {text : String} (h : generate c options w r = .ok text)
    {role : Role} {id : String} {b : Block}
    (hplaced : Surroundings.Placed ⟨c, w, r, options.indentWidth⟩ role id)
    (hb : w.block? id = some b) (htype : b.blockType = "text") :
    (literal ((b.fieldText? "TEXT").getD "")).toList <:+: text.toList := by
  have hpure : c.Pure := hc ▸ Catalog.pure_standard
  obtain ⟨head, hhead, hshows⟩ := hplaced.shows_literal hc hb htype
  obtain ⟨texts, htexts, rfl⟩ := expandsChain_of_generate hpure (.refl w) h
  obtain ⟨code, hcode, hexpands⟩ := forall₂_exists_of_mem htexts hhead
  have hinfix := hshows code hexpands
  have hfilled : code ≠ "" := by
    rintro rfl
    exact (unbroken_literal _).filled (List.infix_nil.1 hinfix)
  refine hinfix.trans (infix_intercalate _ (List.mem_append_right _ ?_))
  exact List.mem_filter.2 ⟨hcode, by simpa using hfilled⟩

/-- Whatever a text block says that the walk comes to, its literal stands in the program unaltered:
it is on one line, and read there it ends at its own last quote and says the text of the block. -/
theorem literal_of_generate {options : GenerateOptions} {w : Workspace} {r : Registries}
    {text : String} (h : generate .standard options w r = .ok text) {role : Role} {id : String}
    {b : Block} (hplaced : Surroundings.Placed ⟨.standard, w, r, options.indentWidth⟩ role id)
    (hb : w.block? id = some b) (htype : b.blockType = "text") :
    let said := (b.fieldText? "TEXT").getD ""
    (∃ before after, text.toList = before ++ (literal said).toList ++ after ∧
      readLiteral? ((literal said).toList ++ after) = some (said, after)) ∧
      '\n' ∉ (literal said).toList ∧ ∀ other, literal other = literal said → other = said := by
  intro said
  obtain ⟨before, after, htext⟩ := infix_of_generate rfl h hplaced hb htype
  refine ⟨⟨before, after, htext.symm, readLiteral?_literal said after⟩, ?_, ?_⟩
  · exact (unbroken_literal said).feed
  · exact fun other hother => literal_injective hother

/-- A text that is printed by agents again and again. -/
def asksToPrint (said : String) : Workspace :=
  Workspace.empty
    |>.insert "ask" ((Block.new "agent_ask").withStatement "DO" "repeat" |>.atTopLevel 0 0)
    |>.insert "repeat" ((Block.new "control_repeat").withStatement "DO" "print")
    |>.insert "print" ((Block.new "output_print").withInput "VALUE" "text")
    |>.insert "text" ((Block.new "text").withField "TEXT" (.text said))

theorem placed_asksToPrint {c : Catalog} (hc : c = .standard) (said : String) (r : Registries)
    (width : Nat) : Surroundings.Placed ⟨c, asksToPrint said, r, width⟩ .value "text" := by
  refine ⟨"ask", Workspace.mem_topLevelIds_iff.2 ⟨_, rfl, rfl⟩,
    [(.body "DO", "repeat"), (.body "DO", "print"), (.input "VALUE", "text")], ?_⟩
  refine .step (Surroundings.edge_of_template hc rfl rfl (.tail _ (.head _)) rfl) ?_
  refine .step (Surroundings.edge_of_template hc rfl rfl (.tail _ (.head _)) rfl) ?_
  refine .step (Surroundings.edge_of_template hc rfl rfl (.head _) rfl) ?_
  exact .stop .value "text"

theorem literal_of_generate_asksToPrint :
    let said := "a\\\"\r\n\r"
    let text := "ask turtles [\n  repeat 10 [\n    print \"a\\\\\\\"\r\\n\r\"\n  ]\n]"
    generate .standard .default (asksToPrint said) .empty = .ok text ∧
      Surroundings.Placed ⟨.standard, asksToPrint said, .empty, 2⟩ .value "text" ∧
      (∃ before after, text.toList = before ++ (literal said).toList ++ after ∧
        readLiteral? ((literal said).toList ++ after) = some (said, after)) := by
  intro said text
  have htext : generate .standard .default (asksToPrint said) .empty = .ok text := by
    decide +kernel
  have hplaced := placed_asksToPrint rfl said .empty 2
  exact ⟨htext, hplaced, (literal_of_generate htext hplaced rfl rfl).1⟩

end AgentBlocks
