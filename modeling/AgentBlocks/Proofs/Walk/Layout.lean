import AgentBlocks.Proofs.Catalog.Framing
import AgentBlocks.Proofs.Registry.Declarations
import AgentBlocks.Proofs.Walk.Assembly

/-!
The layout of programs. Where the fields that stand in the program as they are hold one of the
choices that they offer, a program is well bracketed, and the blank lines in it stand between its
sections: the declarations, and for each top-level block one chain.
-/
namespace AgentBlocks

open Text

namespace Registries

theorem tidy_bracketedNames {names : List String} (h : ∀ name ∈ names, Tidy name) :
    Tidy (bracketedNames names) := by
  have hnames : Reading.run ⟨⟨[']'], .outside⟩, true⟩ (" ".intercalate names).toList =
      some ⟨⟨[']'], .outside⟩, true⟩ := by
    induction names with
    | nil => rfl
    | cons name rest ih =>
        obtain ⟨hname, hrest⟩ := List.forall_mem_cons.1 h
        cases rest with
        | nil => exact hname.run [']'] true
        | cons next rest =>
            rw [String.intercalate_cons_cons, String.toList_append, String.toList_append,
              Reading.run_append, Reading.run_append, hname.run, Option.bind_some]
            exact ih hrest
  have hopen : Reading.start.run "[ ".toList = some ⟨⟨[']'], .outside⟩, true⟩ := rfl
  rw [Tidy, bracketedNames, String.toList_append, String.toList_append, Reading.run_append,
    Reading.run_append, hopen, Option.bind_some, hnames]
  rfl

theorem tidy_breedLine {b : Breed} (hplural : Tidy b.plural) (hsingular : Tidy b.singular) :
    Tidy (breedLine b) := by
  have hkeyword : ∀ kind : BreedKind, Tidy (kind.declarationKeyword ++ " ") := by
    intro kind
    cases kind <;> decide
  refine (hkeyword b.kind).append (tidy_bracketedNames ?_)
  simp [hplural, hsingular]

theorem tidy_ownLine {owner : String} {names : List String} (howner : Tidy owner)
    (h : ∀ name ∈ names, Tidy name) : Tidy (ownLine owner names) := by
  have hown : Tidy "-own " := by decide
  exact (howner.append hown).append (tidy_bracketedNames h)

theorem Coherent.tidy_declarations {r : Registries} (hr : r.Coherent) :
    ∀ code ∈ r.declarations, Tidy code := by
  have hvars : ∀ p : Variable → Bool, ∀ name ∈ (r.vars.filter p).map (·.name), Tidy name := by
    intro p
    exact List.forall_mem_map.2 fun v hv => (hr.lexeme_variable (List.mem_filter.1 hv).1).tidy
  have hsections : ∀ {α : Type} {lines : List α} {write : α → String}, ¬lines.isEmpty = true →
      (∀ a ∈ lines, Tidy (write a)) → Tidy ("\n".intercalate (lines.map write)) :=
    fun hne h => tidy_intercalate (by simpa using hne) (List.forall_mem_map.2 h)
  unfold declarations
  simp only [List.forall_mem_append]
  refine ⟨⟨?_, ?_⟩, ?_⟩
  · split
    · exact nofun
    · have hglobals : Tidy "globals " := by decide
      exact List.forall_mem_singleton.2 (hglobals.append (tidy_bracketedNames (hvars _)))
  · split
    · exact nofun
    · rename_i hne
      refine List.forall_mem_singleton.2 (hsections hne fun b hb => ?_)
      have hbreed := hr.lexeme_breed (List.mem_filter.1 hb).1
      exact tidy_breedLine hbreed.1.tidy hbreed.2.tidy
  · split
    · exact nofun
    · rename_i hne
      refine List.forall_mem_singleton.2 (hsections hne ?_)
      rw [ownedVariables_eq]
      refine List.forall_mem_map.2 fun owner howner => tidy_ownLine ?_ (hvars _)
      obtain ⟨b, hb, rfl⟩ := List.mem_map.1 (hr.owners_subset howner)
      exact (hr.lexeme_breed hb).1.tidy

end Registries

theorem BodyForm.run_text (form : BodyForm) {body : String} (h : body = "" ∨ Tidy body)
    (awaited : List Char) : Reading.run ⟨⟨awaited, .outside⟩, true⟩ (form.text body).toList =
      some ⟨⟨awaited, .outside⟩, true⟩ := by
  rcases h with rfl | h
  · cases form <;> rfl
  · have hfeed : Reading.run ⟨⟨awaited, .outside⟩, true⟩ ("\n" ++ body).toList =
        some ⟨⟨awaited, .outside⟩, true⟩ := by
      rw [String.toList_append, Reading.run_append]
      exact h.run awaited false
    have hbrackets : Reading.run ⟨⟨awaited, .outside⟩, true⟩ (inBrackets body).toList =
        some ⟨⟨awaited, .outside⟩, true⟩ := by
      have hopen : Reading.run ⟨⟨awaited, .outside⟩, true⟩ "[\n".toList =
          some ⟨⟨']' :: awaited, .outside⟩, false⟩ := rfl
      rw [inBrackets, if_neg (by simpa using h.ne_empty), String.toList_append,
        String.toList_append, Reading.run_append, Reading.run_append, hopen, Option.bind_some,
        h.run, Option.bind_some]
      have hclose : Reading.run ⟨⟨']' :: awaited, .outside⟩, true⟩ "\n]".toList =
          some ⟨⟨awaited, .outside⟩, true⟩ := by
        have hblank : isBlank ']' = false := rfl
        simp [Reading.run, Reading.step, Nesting.step, Nesting.bracket, hblank]
      exact hclose
    have hne : ¬body.isEmpty = true := by simpa using h.ne_empty
    cases form with
    | bracketed => exact hbrackets
    | optional =>
        rw [text, if_neg hne, String.toList_append, Reading.run_append]
        exact hbrackets
    | ownLines =>
        rw [text, if_neg hne]
        exact hfeed
    | plain => exact h.run awaited true

theorem Catalog.madeOf_standard : Catalog.standard.MadeOf Standard.designs := by
  intro name type h
  rw [Standard.type?_standard] at h
  obtain ⟨d, hfind, rfl⟩ := Option.map_eq_some_iff.1 h
  exact ⟨d, List.mem_of_find?_eq_some hfind, by simpa using List.find?_some hfind, rfl⟩

namespace Piece

variable {r r' : Reading} {slot code : String}

theorem run_value {bound : Bound} (h : read r (.value slot bound) = some r') (hcode : Tidy code) :
    r.run code.toList = some r' := by
  obtain ⟨⟨awaited, quoting⟩, filled⟩ := r
  rw [read] at h
  split at h
  · rename_i hquoting
    cases hquoting
    cases h
    exact hcode.run awaited filled
  · cases h

theorem run_body {form : BodyForm} (h : read r (.body slot form) = some r')
    (hcode : code = "" ∨ Tidy code) : r.run (form.text code).toList = some r' := by
  obtain ⟨⟨awaited, quoting⟩, filled⟩ := r
  rw [read] at h
  split at h
  · rename_i hready
    obtain ⟨hquoting, hfilled⟩ := hready
    cases hquoting
    cases hfilled
    cases h
    exact form.run_text hcode awaited
  · cases h

end Piece

namespace Surroundings

variable {s : Surroundings} {b : Block} {type : BlockType}

/-- The text of a chain of tidy blocks is tidy. -/
theorem tidy_chainText {head : String} {blocks : List (String × Phrase)}
    (hchain : s.workspace.Chain head (blocks.map (·.1))) (h : ∀ e ∈ blocks, Tidy e.2.code) :
    Tidy (chainText blocks) := by
  have hne : blocks ≠ [] := by
    rintro rfl
    cases hchain
  rw [chainText, List.filter_eq_self.2]
  · exact tidy_intercalate (by simpa using hne) (List.forall_mem_map.2 h)
  · exact List.forall_mem_map.2 fun e he => by simpa using (h e he).ne_empty

/-- A text is read as its pieces are, when what is plugged in is tidy. -/
theorem Fills.run {block : String → Phrase → Prop} {chain : String → String → Prop}
    {pieces : List Piece} {code : String} (h : s.Fills block chain b type pieces code)
    (hdefault : ∀ slot, Tidy (type.defaultFor slot))
    (hblock : ∀ id phrase, block id phrase → Tidy phrase.code)
    (hchain : ∀ head text, chain head text → Tidy text) {r r' : Reading}
    (hread : pieces.foldlM Piece.read r = some r') : r.run code.toList = some r' := by
  induction h generalizing r with
  | nil => exact hread
  | text word _ ih =>
      rw [List.foldlM_cons] at hread
      obtain ⟨r₁, hword, hrest⟩ := Option.bind_eq_some_iff.1 hread
      rw [String.toList_append, Reading.run_append, show r.run word.toList = _ from hword]
      exact ih hrest
  | emptyInput hslot _ ih =>
      rw [List.foldlM_cons] at hread
      obtain ⟨r₁, hpiece, hrest⟩ := Option.bind_eq_some_iff.1 hread
      rw [String.toList_append, Reading.run_append, Piece.run_value hpiece (hdefault _)]
      exact ih hrest
  | input hslot hchild _ ih =>
      rw [List.foldlM_cons] at hread
      obtain ⟨r₁, hpiece, hrest⟩ := Option.bind_eq_some_iff.1 hread
      have hcode := (hblock _ _ hchild).enclose
      rw [String.toList_append, Reading.run_append, Piece.run_value hpiece (hcode _ _)]
      exact ih hrest
  | emptyBody hslot _ ih =>
      rw [List.foldlM_cons] at hread
      obtain ⟨r₁, hpiece, hrest⟩ := Option.bind_eq_some_iff.1 hread
      rw [String.toList_append, Reading.run_append, Piece.run_body hpiece (.inl rfl)]
      exact ih hrest
  | body hslot hhead _ ih =>
      rw [List.foldlM_cons] at hread
      obtain ⟨r₁, hpiece, hrest⟩ := Option.bind_eq_some_iff.1 hread
      have hcode := (hchain _ _ hhead).indent s.indentWidth
      rw [String.toList_append, Reading.run_append, Piece.run_body hpiece (.inr hcode)]
      exact ih hrest

variable {reached : Role → String → Prop} (hs : s.catalog = .standard)
  (hr : s.registries.Coherent) (hclosed : s.Closed reached)
  (hchosen : ∀ role id b, reached role id → s.workspace.block? id = some b →
    b.Chosen s.catalog s.registries)
include hs hr hclosed hchosen

theorem ExpandsBlock.tidy {role : Role} {id : String} {phrase : Phrase}
    (h : s.ExpandsBlock id phrase) (hid : reached role id) : Tidy phrase.code := by
  refine h.induct (P := fun _ _ phrase => Tidy phrase.code) (hs ▸ Catalog.madeOf_standard) hclosed
    ?_ hid
  intro role id b d hd text hid hname hlookup hfills
  have hadmits : d.Admits s.registries b :=
    Block.Chosen.admits (hs ▸ hchosen role id b hid (s.lookup_eq_ok.1 hlookup).1) hd hname
  have hframed := Standard.closes_designs hr d hd b hadmits
  have hdefault := fun slot => (Standard.inline_defaultFor d hd slot).tidy
  rw [Template.code_result]
  exact hfills.run hdefault (fun _ _ h => h.2.2)
    (fun _ _ ⟨_, hchain, hblocks, htext⟩ =>
      htext ▸ tidy_chainText hchain fun e he => (hblocks e he).2.2) hframed.reads

theorem ExpandsChain.tidy {head text : String} (h : s.ExpandsChain head text)
    (hhead : reached .chain head) : Tidy text := by
  obtain ⟨blocks, hchain, hblocks, rfl⟩ := h
  have hreached := reached_of_chain hclosed hchain hhead <| List.forall_mem_map.2 fun e he => by
    obtain ⟨b, type, hlookup, -⟩ := hblocks e he
    exact ⟨_, hlookup⟩
  refine tidy_chainText hchain fun e he => ?_
  exact (hblocks e he).tidy hs hr hclosed hchosen (hreached _ (List.mem_map_of_mem he))

end Surroundings

/-- The chains of a program, each of which is tidy. -/
theorem generate_eq_chains {c : Catalog} (hc : c = .standard) {w : Workspace} {r : Registries}
    (hr : r.Coherent) {options : GenerateOptions} {reached : Role → String → Prop}
    (hclosed : Surroundings.Closed ⟨c, w, r, options.indentWidth⟩ reached)
    (hheads : ∀ head ∈ w.topLevelIds, reached .chain head)
    (hchosen : ∀ role id b, reached role id → w.block? id = some b → b.Chosen c r) {text : String}
    (h : generate c options w r = .ok text) :
    ∃ chains, List.Forall₂ (Surroundings.ExpandsChain ⟨c, w, r, options.indentWidth⟩)
        w.topLevelIds chains ∧ (∀ chain ∈ chains, Tidy chain) ∧
      text = "\n\n".intercalate
        ((if options.includeDeclarations then r.declarations else []) ++ chains) := by
  have hpure : c.Pure := hc ▸ Catalog.pure_standard
  obtain ⟨chains, hchains, htext⟩ := expandsChain_of_generate hpure (.refl w) h
  have htidy : ∀ chain ∈ chains, Tidy chain := by
    clear htext
    generalize w.topLevelIds = heads at hchains hheads
    induction hchains with
    | nil => exact nofun
    | cons hchain _ ih =>
        obtain ⟨hhead, hrest⟩ := List.forall_mem_cons.1 hheads
        exact List.forall_mem_cons.2 ⟨hchain.tidy hc hr hclosed hchosen hhead, ih hrest⟩
  refine ⟨chains, hchains, htidy, ?_⟩
  rw [htext, List.filter_eq_self.2]
  exact fun chain hchain => by simpa using (htidy chain hchain).ne_empty

/-- A program over registries that come from edits, with offered choices in the fields that stand in
it as they are. It is well bracketed, and at its blank lines it falls into the declarations and, for
each top-level block in order, one chain that is not empty. -/
theorem generate_sections (edits : List RegistryEdit) {w : Workspace} {options : GenerateOptions}
    (hchosen : ∀ id b, w.block? id = some b → b.Chosen .standard (RegistryEdit.run .empty edits))
    {text : String}
    (h : generate .standard options w (RegistryEdit.run .empty edits) = .ok text) :
    wellBracketed text = true ∧ ∃ chains : List String,
      List.Forall₂ (Surroundings.ExpandsChain
        ⟨.standard, w, RegistryEdit.run .empty edits, options.indentWidth⟩) w.topLevelIds chains ∧
      (∀ chain ∈ chains, chain ≠ "") ∧
      text = "\n\n".intercalate (sections text) ∧
      sections text = (if options.includeDeclarations then
        (RegistryEdit.run .empty edits).declarations else []) ++ chains ∧
      ∀ code ∈ sections text, ∀ line ∈ code.toList.splitOn '\n', isBlankLine line = false := by
  have hr := RegistryEdit.coherent_run Registries.coherent_empty edits
  have hclosed : ∀ s : Surroundings, s.Closed fun _ _ => True := fun _ _ _ _ _ _ _ => trivial
  obtain ⟨chains, hchains, htidy, rfl⟩ := generate_eq_chains rfl hr (hclosed _)
    (fun _ _ => trivial) (fun _ id b _ => hchosen id b) h
  have hall : ∀ code ∈ (if options.includeDeclarations then
      (RegistryEdit.run .empty edits).declarations else []) ++ chains, Tidy code := by
    refine List.forall_mem_append.2 ⟨?_, htidy⟩
    split
    · exact hr.tidy_declarations
    · exact nofun
  rw [sections_intercalate hall]
  refine ⟨wellBracketed_sections hall, chains, hchains, fun chain hchain => ?_, rfl, rfl, ?_⟩
  · exact (htidy chain hchain).ne_empty
  · intro code hcode line hline
    obtain ⟨c, hc, hblank⟩ := ((hall code hcode).solid line hline).filled
    rw [isBlankLine, List.all_eq_false]
    exact ⟨c, hc, by simp [hblank]⟩

/-- A loop that sets a declared variable to a text with brackets, a quote and line breaks in it. -/
def quotedLoop : Workspace :=
  Workspace.empty
    |>.insert "repeat" ((Block.new "control_repeat").withStatement "DO" "set" |>.atTopLevel 0 0)
    |>.insert "set" ((Block.new "variable_set").withField "VAR" (.text "hunger")
      |>.withInput "VALUE" "text")
    |>.insert "text" ((Block.new "text").withField "TEXT" (.text "]\"\n\n("))

theorem chosen_quotedLoop : ∀ id b, quotedLoop.block? id = some b →
    b.Chosen .standard (RegistryEdit.run .empty [.addVariable "hunger" .global]) := by
  intro id b hb
  simp only [quotedLoop, Workspace.insert, Workspace.block?, Dict.get?_insert] at hb
  split at hb
  · cases hb
    exact Block.chosen_of_unset (by decide)
  · split at hb
    · cases hb
      intro field hfield choices hchoices s hs
      have hfields : ∀ field ∈ verbatimFields "variable_set", field ≠ "VAR" →
          ((Block.new "variable_set").withField "VAR" (.text "hunger")
            |>.withInput "VALUE" "text").fieldText? field = none := by decide
      have hvar : Catalog.standard.fieldOptions?
          (RegistryEdit.run .empty [.addVariable "hunger" .global]) "variable_set" "VAR" =
            some ["hunger"] := by
        rw [Catalog.fieldOptions?, Standard.type?_standard]
        decide +kernel
      by_cases hname : field = "VAR"
      · subst hname
        cases hs
        cases hvar.symm.trans hchoices
        exact .inr (List.mem_singleton_self _)
      · rw [hfields field hfield hname] at hs
        cases hs
    · split at hb
      · cases hb
        exact Block.chosen_of_unset (by decide)
      · cases hb

theorem generate_sections_quotedLoop :
    (∀ id b, quotedLoop.block? id = some b →
        b.Chosen .standard (RegistryEdit.run .empty [.addVariable "hunger" .global])) ∧
      ∃ text, generate .standard .default quotedLoop
          (RegistryEdit.run .empty [.addVariable "hunger" .global]) = .ok text ∧
        text = "globals [ hunger ]\n\nrepeat 10 [\n  set hunger \"]\\\"\\n\\n(\"\n]" ∧
        wellBracketed text = true ∧ sections text =
          ["globals [ hunger ]", "repeat 10 [\n  set hunger \"]\\\"\\n\\n(\"\n]"] := by
  have htext : generate .standard .default quotedLoop
        (RegistryEdit.run .empty [.addVariable "hunger" .global]) =
      .ok "globals [ hunger ]\n\nrepeat 10 [\n  set hunger \"]\\\"\\n\\n(\"\n]" := by
    decide +kernel
  have hsections := generate_sections [.addVariable "hunger" .global] chosen_quotedLoop htext
  exact ⟨chosen_quotedLoop, _, htext, rfl, hsections.1, by decide +kernel⟩

end AgentBlocks
