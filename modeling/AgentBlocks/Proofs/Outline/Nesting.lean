import AgentBlocks.Proofs.Outline.Beginnings
import AgentBlocks.Proofs.Walk.Layout

/-!
The nesting of statements: which statements stand in the bodies of which others. The outline of a
statement is the one as which its text is read, when those of the statements in its bodies are.
-/
namespace AgentBlocks

open Text

/-- The statement slots that a rule asks for while all slots are empty. -/
def Rule.bodySlots : Rule → List String
  | .done _ => []
  | .value _ _ next => (next (.ok "")).bodySlots
  | .statements slot next => slot :: (next (.ok "")).bodySlots

namespace Surroundings

mutual

/-- The outline of a statement. Its header is the text that it has with all its bodies empty. -/
inductive Nests (s : Surroundings) : String → Outline → Prop
  | node {id b type header bodies} : s.lookup id = .ok (b, type) →
      s.Expands { b with statements := .empty } type
        (type.rule { b with statements := .empty } s.registries) header →
      NestsBodies s b (type.rule b s.registries).bodySlots bodies →
      Nests s id (.node header.code bodies)

/-- The outlines in the bodies of a block, slot by slot. -/
inductive NestsBodies (s : Surroundings) : Block → List String → List (List Outline) → Prop
  | nil {b} : NestsBodies s b [] []
  | empty {b slot slots bodies} : b.statements.get? slot = none → NestsBodies s b slots bodies →
      NestsBodies s b (slot :: slots) ([] :: bodies)
  | filled {b slot slots head statements bodies} : b.statements.get? slot = some head →
      NestsChain s head statements → NestsBodies s b slots bodies →
      NestsBodies s b (slot :: slots) (statements :: bodies)

/-- The outlines of the statements along a chain. -/
inductive NestsChain (s : Surroundings) : String → List Outline → Prop
  | last {id outline} : (s.workspace.block? id).bind (·.next) = none → Nests s id outline →
      NestsChain s id [outline]
  | cons {id next outline statements} : (s.workspace.block? id).bind (·.next) = some next →
      Nests s id outline → NestsChain s next statements →
      NestsChain s id (outline :: statements)

end

end Surroundings

/-- The statement slot that a piece asks for. -/
def Piece.bodySlot? : Piece → Option String
  | .text _ | .value _ _ => none
  | .body slot _ => some slot

namespace Template

theorem bodySlots_assemble (t : Template) (pieces : List Piece) (code : String) :
    (t.assemble pieces code).bodySlots = pieces.filterMap Piece.bodySlot? := by
  induction pieces generalizing code with
  | nil => rfl
  | cons piece rest ih =>
      cases piece with
      | text word => exact ih _
      | value slot bound => exact ih _
      | body slot form => exact congrArg (slot :: ·) (ih _)

theorem bodySlots_rule (t : Template) : t.rule.bodySlots = t.tail.filterMap Piece.bodySlot? := by
  have hline : t.line.filterMap Piece.bodySlot? = [] := by
    refine List.filterMap_eq_nil_iff.2 fun piece hpiece => ?_
    have hbody := isBody_of_mem_line hpiece
    cases piece with
    | text word => rfl
    | value slot bound => rfl
    | body slot form => cases hbody
  rw [rule, bodySlots_assemble, ← t.line_append_tail, List.filterMap_append, hline,
    List.nil_append]

end Template

namespace Ending

/-- The statement slots of a block with the ending. -/
def slots (ending : Ending) : List String := ending.pieces.filterMap Piece.bodySlot?

/-- The text of the ending with all bodies empty. -/
def closed : Ending → String
  | .plain | .optional => ""
  | .loop => "[]"
  | .branches => "[] []"
  | .definition => "\nend"

end Ending

namespace Surroundings

open Outline

/-- The chain has the outlines as which its text is read. -/
def OutlinesChain (s : Surroundings) (head code : String) : Prop :=
  Tidy code ∧ ∃ statements, (∀ found, s.NestsChain head found ↔ found = statements) ∧
    Reads (rows code) statements

/-- The statement has the outline as which its text is read. -/
def OutlinesBlock (s : Surroundings) (id : String) (phrase : Phrase) : Prop :=
  ∃ outline, (∀ found, s.Nests id found ↔ found = outline) ∧ Reads (rows phrase.code) [outline]

variable {s : Surroundings} {block : String → Phrase → Prop} {b : Block} {type : BlockType}
  {head code : String}

theorem ChainOf.outlines (h : s.ChainOf (fun id phrase => Tidy phrase.code ∧
    s.OutlinesBlock id phrase) head code) : s.OutlinesChain head code := by
  obtain ⟨blocks, hchain, hblocks, rfl⟩ := h
  refine ⟨tidy_chainText hchain fun e he => (hblocks e he).1, ?_⟩
  have hne : blocks.map (·.2.code) ≠ [] := by
    rintro hnil
    rw [List.map_eq_nil_iff] at hnil
    subst hnil
    cases hchain
  have hcodes : (blocks.map (·.2.code)).filter (!·.isEmpty) = blocks.map (·.2.code) :=
    List.filter_eq_self.2 (List.forall_mem_map.2 fun e he => by
      simpa using (hblocks e he).1.ne_empty)
  rw [chainText, hcodes, rows_intercalate _ hne, List.flatMap_map]
  clear hne hcodes
  induction blocks generalizing head with
  | nil => cases hchain
  | cons e rest ih =>
      obtain ⟨⟨-, outline, houtline, hreads⟩, hrest⟩ := List.forall_mem_cons.1 hblocks
      generalize hids : ((e :: rest).map (·.1) : List String) = ids at hchain
      cases hchain with
      | last hend =>
          obtain ⟨rfl, hnil⟩ := List.cons.inj hids
          obtain rfl := List.map_eq_nil_iff.1 hnil
          refine ⟨[outline], fun found => ⟨fun h => ?_, ?_⟩, by simpa using hreads⟩
          · cases h with
            | last _ hfound => rw [(houtline _).1 hfound]
            | cons hnext => cases hend.symm.trans hnext
          · rintro rfl
            exact .last hend ((houtline _).2 rfl)
      | cons hnext hchain =>
          obtain ⟨rfl, rfl⟩ := List.cons.inj hids
          obtain ⟨statements, hstatements, hreads'⟩ := ih hchain hrest
          refine ⟨outline :: statements, fun found => ⟨fun h => ?_, ?_⟩, hreads.append hreads'⟩
          · cases h with
            | last hend => cases hend.symm.trans hnext
            | cons hnext' hfound hfounds =>
                cases hnext.symm.trans hnext'
                rw [(houtline _).1 hfound, (hstatements _).1 hfounds]
          · rintro rfl
            exact .cons hnext ((houtline _).2 rfl) ((hstatements _).2 rfl)

/-- A filled or empty statement slot: its text and the statements in it. -/
theorem Fills.outlines_body {slot : String} {form : BodyForm}
    (h : s.Fills block s.OutlinesChain b type [.body slot form] code) :
    ∃ body statements, code = form.text body ∧ IsBody body statements ∧
      ∀ slots bodies, s.NestsBodies b (slot :: slots) bodies ↔
        ∃ rest, s.NestsBodies b slots rest ∧ bodies = statements :: rest := by
  cases h with
  | emptyBody hslot hnil =>
      cases hnil
      refine ⟨"", [], String.append_empty, .inl ⟨rfl, rfl⟩, fun slots bodies => ⟨fun h => ?_, ?_⟩⟩
      · cases h with
        | empty _ hrest => exact ⟨_, hrest, rfl⟩
        | filled hslot' => cases hslot.symm.trans hslot'
      · rintro ⟨rest, hrest, rfl⟩
        exact .empty hslot hrest
  | body hslot hhead hnil =>
      cases hnil
      obtain ⟨htidy, statements, hstatements, hreads⟩ := hhead
      refine ⟨_, statements, String.append_empty, .inr ⟨(htidy.indent _).ne_empty, ?_⟩,
        fun slots bodies => ⟨fun h => ?_, ?_⟩⟩
      · rwa [rows_indent htidy]
      · cases h with
        | empty hslot' => cases hslot.symm.trans hslot'
        | filled hslot' hfound hrest =>
            cases hslot.symm.trans hslot'
            exact ⟨_, hrest, by rw [(hstatements _).1 hfound]⟩
      · rintro ⟨rest, hrest, rfl⟩
        exact .filled hslot ((hstatements _).2 rfl) hrest

theorem nestsBodies_nil {bodies : List (List Outline)} :
    s.NestsBodies b [] bodies ↔ bodies = [] := by
  constructor
  · rintro ⟨⟩
    rfl
  · rintro rfl
    exact .nil

theorem nestsBodies_singleton {slot : String} {statements : List Outline}
    (h : ∀ slots bodies, s.NestsBodies b (slot :: slots) bodies ↔
      ∃ rest, s.NestsBodies b slots rest ∧ bodies = statements :: rest)
    (bodies : List (List Outline)) : s.NestsBodies b [slot] bodies ↔ bodies = [statements] := by
  simp [h, nestsBodies_nil]

/-- The bodies of a statement, and how its text is read, from how it begins and ends. -/
theorem Fills.outlines_ending {ending : Ending}
    (h : s.Fills block s.OutlinesChain b type ending.pieces code) (hbegins : Begins head ending)
    (hlast : ending = .optional → head.toList.getLast? ≠ some '[')
    (hbare : ending = .branches → ¬"[] ".toList <:+ head.toList) :
    ∃ bodies, (∀ found, s.NestsBodies b ending.slots found ↔ found = bodies) ∧
      Reads (rows (head ++ code)) [.node (head ++ ending.closed) bodies] := by
  cases ending with
  | plain =>
      cases h
      refine ⟨[], fun found => nestsBodies_nil, ?_⟩
      rw [String.append_empty, Ending.closed, String.append_empty]
      exact hbegins.reads_plain
  | loop =>
      obtain ⟨body, statements, rfl, hbody, hbodies⟩ := h.outlines_body
      exact ⟨[statements], nestsBodies_singleton hbodies, hbegins.reads_loop hbody⟩
  | branches =>
      obtain ⟨code, rest, hcode, hrest, rfl⟩ := Fills.uncons h
      obtain ⟨blank, code', hblank, hcode', rfl⟩ := hrest.uncons
      obtain ⟨body, statements, rfl, hbody, hbodies⟩ := hcode.outlines_body
      obtain ⟨body', statements', rfl, hbody', hbodies'⟩ := hcode'.outlines_body
      have hslots : Ending.branches.slots = ["DO", "ELSE"] := rfl
      refine ⟨[statements, statements'], fun found => ?_, ?_⟩
      · simp [hslots, hbodies, hbodies', nestsBodies_nil]
      · rw [hblank.eq_text, ← String.append_assoc, ← String.append_assoc]
        exact hbegins.reads_branches (hbare rfl) hbody hbody'
  | optional =>
      obtain ⟨body, statements, rfl, hbody, hbodies⟩ := h.outlines_body
      refine ⟨[statements], nestsBodies_singleton hbodies, ?_⟩
      rw [Ending.closed, String.append_empty]
      exact hbegins.reads_optional (hlast rfl) hbody
  | definition =>
      obtain ⟨code, code', hcode, hcode', rfl⟩ := Fills.uncons h
      obtain ⟨body, statements, rfl, hbody, hbodies⟩ := hcode.outlines_body
      refine ⟨[statements], nestsBodies_singleton hbodies, ?_⟩
      rw [hcode'.eq_text, ← String.append_assoc]
      exact hbegins.reads_definition hbody

/-- Pieces without chains have the same text when there are no chains to plug in. -/
theorem Fills.of_line {block' : String → Phrase → Prop} {chain chain' : String → String → Prop}
    {pieces : List Piece} (h : s.Fills block chain b type pieces code)
    (hblock : ∀ id phrase, block id phrase → block' id phrase)
    (hbody : ∀ piece ∈ pieces, piece.isBody = false) :
    s.Fills block' chain' { b with statements := .empty } type pieces code := by
  induction h with
  | nil => exact .nil
  | text word _ ih => exact .text word (ih (List.forall_mem_cons.1 hbody).2)
  | emptyInput hslot _ ih => exact .emptyInput hslot (ih (List.forall_mem_cons.1 hbody).2)
  | input hslot hchild _ ih =>
      exact .input hslot (hblock _ _ hchild) (ih (List.forall_mem_cons.1 hbody).2)
  | emptyBody => cases (List.forall_mem_cons.1 hbody).1
  | body => cases (List.forall_mem_cons.1 hbody).1

theorem fills_closed {chain : String → String → Prop} (ending : Ending) :
    s.Fills block chain { b with statements := .empty } type ending.pieces ending.closed := by
  cases ending with
  | plain => exact .nil
  | loop => exact .emptyBody (Dict.get?_empty _) .nil
  | branches => exact .emptyBody (Dict.get?_empty _) (.text _ (.emptyBody (Dict.get?_empty _) .nil))
  | optional => exact .emptyBody (Dict.get?_empty _) .nil
  | definition => exact .emptyBody (Dict.get?_empty _) (.text _ .nil)

/-- The header of a statement: its first line and its ending with all bodies empty. -/
theorem expands_header {d : Design} (hd : d ∈ Standard.designs) {ending : Ending}
    (htail : (d.template b s.registries).tail = ending.pieces)
    (hline : s.Fills block s.OutlinesChain b d.blockType (d.template b s.registries).line head)
    (hblock : ∀ id phrase, block id phrase → s.ExpandsBlock id phrase) :
    s.Expands { b with statements := .empty } d.blockType
      (d.blockType.rule { b with statements := .empty } s.registries)
      ((d.template b s.registries).result (head ++ ending.closed)) := by
  have hpieces : s.Fills s.ExpandsBlock s.ExpandsChain { b with statements := .empty } d.blockType
      ((d.template b s.registries).line ++ ending.pieces) (head ++ ending.closed) :=
    fills_append.2 ⟨head, ending.closed,
      hline.of_line hblock fun _ => Template.isBody_of_mem_line, fills_closed ending, rfl⟩
  rw [← htail, Template.line_append_tail] at hpieces
  have hexpands := hpieces.expands (t := d.template b s.registries) ""
  rw [String.empty_append] at hexpands
  have htemplate : d.template { b with statements := .empty } s.registries =
      d.template b s.registries := Standard.template_eq_of_fields d hd _ b s.registries rfl
  have hrule : d.blockType.rule { b with statements := .empty } s.registries =
      (d.template b s.registries).rule := congrArg Template.rule htemplate
  rw [hrule]
  exact hexpands

/-- What stands before an optional body is tidy. -/
theorem Fills.tidy_line {t : Template} (h : s.Fills block s.OutlinesChain b type t.line head)
    (hframed : t.Framed) (htail : t.tail = Ending.optional.pieces)
    (hdefault : ∀ slot, Tidy (type.defaultFor slot))
    (hblock : ∀ id phrase, block id phrase → Tidy phrase.code) : Tidy head := by
  have hreads := hframed.reads
  rw [← t.line_append_tail, htail, List.foldlM_append] at hreads
  obtain ⟨r, hr, hbody⟩ := Option.bind_eq_some_iff.1 hreads
  have hsame : r = ⟨.start, true⟩ := by
    rw [Ending.pieces, List.foldlM_cons, Piece.read] at hbody
    split at hbody
    · exact Option.some.inj hbody
    · cases hbody
  exact h.run hdefault hblock (fun _ _ h => h.1) (hsame ▸ hr)

/-- A statement has the outline as which its text is read. -/
theorem outlines_of_fills {id : String} {d : Design} (hd : d ∈ Standard.designs)
    (hlookup : s.lookup id = .ok (b, d.blockType)) {ending : Ending}
    (htail : (d.template b s.registries).tail = ending.pieces)
    (hline : s.Fills block s.OutlinesChain b d.blockType (d.template b s.registries).line head)
    (hcode : s.Fills block s.OutlinesChain b d.blockType ending.pieces code)
    (hblock : ∀ id phrase, block id phrase → s.ExpandsBlock id phrase)
    (hbegins : Begins head ending) (hlast : ending = .optional → head.toList.getLast? ≠ some '[')
    (hbare : ending = .branches → ¬"[] ".toList <:+ head.toList) :
    s.OutlinesBlock id ((d.template b s.registries).result (head ++ code)) := by
  obtain ⟨bodies, hbodies, hreads⟩ := hcode.outlines_ending hbegins hlast hbare
  have hheader := expands_header hd htail hline hblock
  have hslots : (d.blockType.rule b s.registries).bodySlots = ending.slots := by
    rw [Ending.slots, ← htail]
    exact (d.template b s.registries).bodySlots_rule
  rw [← Template.code_result (d.template b s.registries) (head ++ code)] at hreads
  refine ⟨.node (head ++ ending.closed) bodies, fun found => ⟨fun hfound => ?_, ?_⟩, hreads⟩
  · cases hfound with
    | node hlookup' hheader' hbodies' =>
        cases hlookup.symm.trans hlookup'
        rw [hslots] at hbodies'
        rw [hheader.unique hheader', Template.code_result, (hbodies _).1 hbodies']
  · rintro rfl
    have hnests := Nests.node hlookup hheader (hslots ▸ (hbodies _).2 rfl)
    rwa [Template.code_result] at hnests

end Surroundings

end AgentBlocks
