import AgentBlocks.Proofs.Catalog.Endings
import AgentBlocks.Proofs.Text.Rows
import AgentBlocks.Proofs.Walk.Depth
import AgentBlocks.Proofs.Walk.Step

/-!
The width of a level scales the leading blanks of a program and decides nothing else. The walks for
all widths are followed side by side: they fail together with the same error, or they give one text
whose lines stand further to the right for greater widths.
-/
namespace AgentBlocks

open Text

/-- Texts for all widths that come from indenting a text. -/
def Indented (body : Nat → String) : Prop :=
  ∃ text, Scales text ∧ body = fun width => indent width (text width)

theorem indented_empty : Indented fun _ => "" := ⟨fun _ => "", scales_empty, rfl⟩

theorem scales_enclose {code : Nat → String} (h : Scales code) (bound : Bound) (p : Precedence) :
    Scales fun width => bound.enclose (code width) p := by
  unfold Bound.enclose
  split
  · exact ((scales_const "(").append h).append (scales_const ")")
  · exact h

namespace BodyForm

variable {body : Nat → String}

theorem scales_inBrackets (h : Indented body) : Scales fun width => inBrackets (body width) := by
  obtain ⟨text, htext, rfl⟩ := h
  rcases htext.indent_eq_empty_or with hempty | hfilled
  · simp only [hempty]
    exact scales_const (inBrackets "")
  · have hlines := ((scales_const "[").append htext.indent).append (scales_const "]")
    have hsame : (fun width => inBrackets (indent width (text width))) = fun width =>
        "[" ++ ("\n" ++ indent width (text width) ++ "\n") ++ "]" := by
      funext width
      rw [inBrackets, if_neg (by simpa using hfilled width)]
      rw [← String.toList_inj]
      simp
    rwa [hsame]

theorem scales_optional (h : Indented body) :
    Scales fun width => BodyForm.optional.text (body width) := by
  have hbrackets := (scales_const " ").append (scales_inBrackets h)
  obtain ⟨text, htext, rfl⟩ := h
  unfold BodyForm.text
  rcases htext.indent_eq_empty_or with hempty | hfilled
  · simp only [hempty]
    exact scales_empty
  · have hfilled' : ∀ width, ¬(indent width (text width)).isEmpty = true := by simpa using hfilled
    simpa only [if_neg (hfilled' _)] using hbrackets

theorem scales_ownLines (h : Indented body) :
    Scales fun width => BodyForm.ownLines.text (body width) ++ "\nend" := by
  obtain ⟨text, htext, rfl⟩ := h
  unfold BodyForm.text
  rcases htext.indent_eq_empty_or with hempty | hfilled
  · simp only [hempty]
    exact scales_const _
  · have hfilled' : ∀ width, ¬(indent width (text width)).isEmpty = true := by simpa using hfilled
    have hend : "\n" ++ "end" = "\nend" := rfl
    have hlines := htext.indent.append (scales_const "end")
    simp only [String.append_assoc, hend] at hlines
    simpa only [if_neg (hfilled' _), String.append_assoc] using hlines

end BodyForm

namespace Walk

variable {α β : Type} {F : (Nat → α) → Prop} {G : (Nat → β) → Prop}

/-- The same for every width. -/
def Same (a : Nat → α) : Prop := ∃ x, a = fun _ => x

/-- The walks for all widths leave the same trail. They fail with the same error, or their results
are as the property says. -/
def Uniform (F : (Nat → α) → Prop) (w : Nat → Walk α) : Prop :=
  ∀ t, (∀ width, w width t = none) ∨ ∃ t', (∃ e, ∀ width, w width t = some (.error e, t')) ∨
    ∃ a, F a ∧ ∀ width, w width t = some (.ok (a width), t')

theorem uniform_same (w : Walk α) : Uniform Same fun _ => w := by
  intro t
  cases h : w t with
  | none => exact .inl fun _ => h
  | some out =>
      obtain ⟨outcome, t'⟩ := out
      cases outcome with
      | error e => exact .inr ⟨t', .inl ⟨e, fun _ => h⟩⟩
      | ok a => exact .inr ⟨t', .inr ⟨fun _ => a, ⟨a, rfl⟩, fun _ => h⟩⟩

theorem uniform_pure {a : Nat → α} (h : F a) : Uniform F fun width => (pure (a width) : Walk α) :=
  fun t => .inr ⟨t, .inr ⟨a, h, fun _ => rfl⟩⟩

theorem Uniform.bind {w : Nat → Walk α} {next : Nat → α → Walk β} (hw : Uniform F w)
    (hnext : ∀ a, F a → Uniform G fun width => next width (a width)) :
    Uniform G fun width => w width >>= next width := by
  intro t
  change (∀ width, (w width).andThen (next width) t = none) ∨ ∃ t',
    (∃ e, ∀ width, (w width).andThen (next width) t = some (.error e, t')) ∨
      ∃ b, G b ∧ ∀ width, (w width).andThen (next width) t = some (.ok (b width), t')
  unfold andThen
  rcases hw t with hnone | ⟨t', ⟨e, herror⟩ | ⟨a, ha, hok⟩⟩
  · exact .inl fun width => by rw [hnone]
  · exact .inr ⟨t', .inl ⟨e, fun width => by rw [herror]⟩⟩
  · simp only [hok]
    exact hnext a ha t'

theorem Uniform.inside {w : Nat → Walk α} (hw : Uniform F w) (id : String) :
    Uniform F fun width => (w width).inside id := by
  intro t
  rcases hw (t.enter id) with hnone | ⟨t', ⟨e, herror⟩ | ⟨a, ha, hok⟩⟩
  · exact .inl fun width => Option.map_eq_none_iff.2 (hnone width)
  · exact .inr ⟨t'.leave, .inl ⟨e, fun width => inside_eq_some.2 ⟨t', herror width, rfl⟩⟩⟩
  · exact .inr ⟨t'.leave, .inr ⟨a, ha, fun width => inside_eq_some.2 ⟨t', hok width, rfl⟩⟩⟩

end Walk

namespace Surroundings

open Walk

def atWidth (s : Surroundings) (width : Nat) : Surroundings := { s with indentWidth := width }

/-- Expressions for all widths: one class, and a text that scales. -/
def ScaledValue (a : Nat → String × Precedence) : Prop :=
  Scales (fun width => (a width).1) ∧ ∃ p, ∀ width, (a width).2 = p

def ScaledPhrase (phrase : Nat → Phrase) : Prop :=
  Scales (fun width => (phrase width).code) ∧ ∃ p, ∀ width, (phrase width).precedence = p

def ScaledList (codes : Nat → List String) : Prop :=
  ∃ texts : List (Nat → String), (∀ text ∈ texts, Scales text) ∧
    codes = fun width => texts.map (· width)

variable {s : Surroundings} {b : Block} {type : BlockType}
  {value : Nat → String → Walk (String × Precedence)} {chain : Nat → String → Walk String}

section RunRule

variable (hvalue : ∀ id, Uniform ScaledValue fun width => value width id)
  (hchain : ∀ id, Uniform Scales fun width => chain width id)

include hvalue in
theorem uniform_needValue {slot : String} {bound : Bound} {next : Nat → String → Rule}
    (hnext : ∀ code, Scales code → Uniform ScaledPhrase fun width =>
      (s.atWidth width).runRule b type (value width) (chain width) (next width (code width))) :
    Uniform ScaledPhrase fun width => (s.atWidth width).runRule b type (value width) (chain width)
      (.needValue slot bound (next width)) := by
  cases hslot : b.inputs.get? slot with
  | none =>
      simp only [Rule.needValue, runRule_value_of_empty hslot]
      exact hnext _ (scales_const _)
  | some child =>
      have hwalk : ∀ width, (s.atWidth width).runRule b type (value width) (chain width)
            (.needValue slot bound (next width)) =
          value width child >>= fun a => (s.atWidth width).runRule b type (value width)
            (chain width) (next width (bound.enclose a.1 a.2)) :=
        fun width => runRule_value_of_filled hslot fun _ => rfl
      simp only [hwalk]
      refine (hvalue child).bind fun a ⟨hcode, p, hp⟩ => ?_
      simp only [hp]
      exact hnext _ (scales_enclose hcode bound p)

include hchain in
theorem uniform_needStatements {slot : String} {next : Nat → String → Rule}
    (hnext : ∀ body, Indented body → Uniform ScaledPhrase fun width =>
      (s.atWidth width).runRule b type (value width) (chain width) (next width (body width))) :
    Uniform ScaledPhrase fun width => (s.atWidth width).runRule b type (value width) (chain width)
      (.needStatements slot (next width)) := by
  cases hslot : b.statements.get? slot with
  | none =>
      simp only [Rule.needStatements, runRule_statements_of_empty hslot]
      exact hnext _ indented_empty
  | some head =>
      have hwalk : ∀ width, (s.atWidth width).runRule b type (value width) (chain width)
            (.needStatements slot (next width)) =
          chain width head >>= fun body => (s.atWidth width).runRule b type (value width)
            (chain width) (next width (indent width body)) :=
        fun width => runRule_statements_of_filled hslot fun _ => rfl
      simp only [hwalk]
      exact (hchain head).bind fun body hbody => hnext _ ⟨body, hbody, rfl⟩

variable {t : Template}

include hvalue in
/-- Words and values keep a text scaled. -/
theorem uniform_line {line rest : List Piece} (hline : ∀ piece ∈ line, piece.isBody = false)
    (hrest : ∀ code, Scales code → Uniform ScaledPhrase fun width =>
      (s.atWidth width).runRule b type (value width) (chain width)
        (t.assemble rest (code width))) {code : Nat → String} (hcode : Scales code) :
    Uniform ScaledPhrase fun width => (s.atWidth width).runRule b type (value width) (chain width)
      (t.assemble (line ++ rest) (code width)) := by
  induction line generalizing code with
  | nil => exact hrest code hcode
  | cons piece line ih =>
      obtain ⟨hpiece, hpieces⟩ := List.forall_mem_cons.1 hline
      cases piece with
      | text word => exact ih hpieces (hcode.append (scales_const word))
      | value slot bound =>
          exact uniform_needValue hvalue fun child hchild => ih hpieces (hcode.append hchild)
      | body slot form => cases hpiece

theorem uniform_result {code : Nat → String} (hcode : Scales code) :
    Uniform ScaledPhrase fun width => (s.atWidth width).runRule b type (value width) (chain width)
      (t.assemble [] (code width)) := by
  refine uniform_pure ⟨?_, ?_⟩
  · unfold Template.result
    cases t.precedence <;> exact hcode
  · unfold Template.result
    cases t.precedence <;> exact ⟨_, fun _ => rfl⟩

include hchain in
theorem uniform_ending (ending : Ending) {code : Nat → String} (hcode : Scales code) :
    Uniform ScaledPhrase fun width => (s.atWidth width).runRule b type (value width) (chain width)
      (t.assemble ending.pieces (code width)) := by
  cases ending with
  | plain => exact uniform_result hcode
  | loop =>
      refine uniform_needStatements hchain fun body hbody => uniform_result ?_
      exact hcode.append (BodyForm.scales_inBrackets hbody)
  | branches =>
      refine uniform_needStatements hchain fun body hbody => ?_
      refine uniform_needStatements hchain fun body' hbody' => uniform_result ?_
      have hfirst := hcode.append (BodyForm.scales_inBrackets hbody)
      exact (hfirst.append (scales_const " ")).append (BodyForm.scales_inBrackets hbody')
  | optional =>
      refine uniform_needStatements hchain fun body hbody => uniform_result ?_
      exact hcode.append (BodyForm.scales_optional hbody)
  | definition =>
      refine uniform_needStatements hchain fun body hbody => uniform_result ?_
      simpa only [String.append_assoc] using hcode.append (BodyForm.scales_ownLines hbody)

include hvalue hchain in
theorem uniform_runRule (hends : s.catalog.Ends) {name : String}
    (htype : s.catalog.type? name = some type) :
    Uniform ScaledPhrase fun width =>
      (s.atWidth width).runRule b type (value width) (chain width) (type.rule b s.registries) := by
  obtain ⟨ending, hending⟩ := hends htype
  obtain ⟨t, hrule, htail⟩ := hending b s.registries
  rw [hrule, Template.rule, ← t.line_append_tail, htail]
  exact uniform_line hvalue (fun _ => Template.isBody_of_mem_line)
    (fun code hcode => uniform_ending hchain ending hcode) scales_empty

end RunRule

theorem scaledList_consText {code : Nat → String} {codes : Nat → List String} (hcode : Scales code)
    (hcodes : ScaledList codes) : ScaledList fun width => consText (code width) (codes width) := by
  obtain ⟨texts, htexts, rfl⟩ := hcodes
  unfold consText
  rcases hcode.eq_empty_or with hempty | hfilled
  · simp only [hempty]
    exact ⟨texts, htexts, rfl⟩
  · have hfilled' : ∀ width, ¬(code width).isEmpty = true := by simpa using hfilled
    simp only [if_neg (hfilled' _)]
    exact ⟨code :: texts, List.forall_mem_cons.2 ⟨hcode, htexts⟩, rfl⟩

theorem ScaledList.intercalate {codes : Nat → List String} (h : ScaledList codes)
    (separator : String) : Scales fun width => separator.intercalate (codes width) := by
  obtain ⟨texts, htexts, rfl⟩ := h
  exact scales_intercalate separator htexts

theorem ScaledList.append {codes : Nat → List String} (sections : List String)
    (h : ScaledList codes) : ScaledList fun width => sections ++ codes width := by
  obtain ⟨texts, htexts, rfl⟩ := h
  refine ⟨sections.map (fun code _ => code) ++ texts, ?_, ?_⟩
  · refine List.forall_mem_append.2 ⟨?_, htexts⟩
    exact List.forall_mem_map.2 fun code _ => scales_const code
  · simp [Function.comp_def]

theorem uniform_lookup {α : Type} {F : (Nat → α) → Prop} {id : String}
    {next : Nat → Block × BlockType → Walk α}
    (hnext : ∀ b type, s.lookup id = .ok (b, type) →
      Uniform F fun width => next width (b, type)) :
    Uniform F fun width => result (s.lookup id) >>= next width := by
  cases hlookup : s.lookup id with
  | error e => exact fun t => .inr ⟨t, .inl ⟨e, fun _ => rfl⟩⟩
  | ok found => exact hnext found.1 found.2 hlookup

section Render

variable {render : Nat → Block → BlockType → Walk Phrase}
  (hrender : ∀ id b type, s.lookup id = .ok (b, type) →
    Uniform ScaledPhrase fun width => render width b type)
include hrender

theorem uniform_walkValue (id : String) :
    Uniform ScaledValue fun width => (s.atWidth width).walkValue (render width) id := by
  refine (uniform_same (checkFree id)).bind fun _ _ => uniform_lookup fun b type hlookup => ?_
  exact ((hrender id b type hlookup).inside id).bind fun phrase hphrase => uniform_pure hphrase

theorem uniform_walkBlocks (ids : List String) :
    Uniform ScaledList fun width => (s.atWidth width).walkBlocks (render width) ids := by
  induction ids with
  | nil => exact uniform_pure ⟨[], nofun, rfl⟩
  | cons id rest ih =>
      refine (uniform_same (place id)).bind fun _ _ => uniform_lookup fun b type hlookup => ?_
      refine (hrender id b type hlookup).bind fun phrase hphrase => ih.bind fun codes hcodes => ?_
      exact uniform_pure (scaledList_consText hphrase.1 hcodes)

theorem uniform_walkChain (head : String) :
    Uniform Scales fun width => (s.atWidth width).walkChain (render width) head := by
  refine (uniform_walkBlocks hrender (s.workspace.chainIds head)).bind fun codes hcodes => ?_
  exact uniform_pure (hcodes.intercalate "\n")

end Render

variable (hends : s.catalog.Ends)
include hends

theorem uniform_render (depth : Nat) (id : String) (b : Block) (type : BlockType)
    (hlookup : s.lookup id = .ok (b, type)) :
    Uniform ScaledPhrase fun width => (s.atWidth width).render depth b type := by
  induction depth generalizing id b type with
  | zero => exact fun _ => .inl fun _ => rfl
  | succ depth ih =>
      have htype := (s.lookup_eq_ok.1 hlookup).2
      exact uniform_runRule (uniform_walkValue ih) (uniform_walkChain ih) hends htype

theorem uniform_walkHeads (depth : Nat) (heads : List String) :
    Uniform ScaledList fun width => (s.atWidth width).walkHeads depth heads := by
  induction heads with
  | nil => exact uniform_pure ⟨[], nofun, rfl⟩
  | cons head rest ih =>
      refine (uniform_walkChain (uniform_render hends depth) head).bind fun code hcode => ?_
      exact ih.bind fun codes hcodes => uniform_pure (scaledList_consText hcode hcodes)

end Surroundings

theorem generate_eq_text {c : Catalog} (hends : c.Ends) (declarations : Bool) (w : Workspace)
    (r : Registries) :
    (∃ e, ∀ width, generate c ⟨width, declarations⟩ w r = .error e) ∨
      ∃ rows : List Row, (∀ row ∈ rows, '\n' ∉ row.content) ∧
        ∀ width, generate c ⟨width, declarations⟩ w r = .ok (Row.text width rows) := by
  let s : Surroundings := ⟨c, w, r, 0⟩
  have hgenerate : ∀ width, ∃ outcome t,
      (s.atWidth width).walkHeads w.size w.topLevelIds .start = some (outcome, t) ∧
        generate c ⟨width, declarations⟩ w r = outcome.map fun chains => "\n\n".intercalate
          ((if declarations then r.declarations else []) ++ chains) :=
    fun width => generate_eq_map c ⟨width, declarations⟩ w r
  have huniform := s.uniform_walkHeads hends w.size w.topLevelIds .start
  rcases huniform with hnone | ⟨t', ⟨e, herror⟩ | ⟨codes, hcodes, hok⟩⟩
  · obtain ⟨outcome, t, hwalk, -⟩ := hgenerate 0
    cases (hnone 0).symm.trans hwalk
  · refine .inl ⟨e, fun width => ?_⟩
    obtain ⟨outcome, t, hwalk, heq⟩ := hgenerate width
    cases (herror width).symm.trans hwalk
    exact heq
  · have hsections := hcodes.append (if declarations then r.declarations else [])
    obtain ⟨rows, hrows, htext⟩ := hsections.intercalate "\n\n"
    refine .inr ⟨rows, hrows.feed, fun width => ?_⟩
    obtain ⟨outcome, t, hwalk, heq⟩ := hgenerate width
    cases (hok width).symm.trans hwalk
    rw [heq, ← htext]
    rfl

/-- For all widths of a level a graph has the same error, or one program: its lines are those of the
program without indentation, each moved by as many levels for every width. -/
theorem generate_eq_rows (declarations : Bool) (w : Workspace) (r : Registries) :
    (∃ e, ∀ width, generate .standard ⟨width, declarations⟩ w r = .error e) ∨
      ∃ rows : List Row, (∀ row ∈ rows, '\n' ∉ row.content) ∧
        ∀ width, generate .standard ⟨width, declarations⟩ w r = .ok (Row.text width rows) :=
  generate_eq_text Catalog.ends_standard declarations w r

end AgentBlocks
