import AgentBlocks.Proofs.Catalog.Framing
import AgentBlocks.Proofs.Outline.Reading
import AgentBlocks.Proofs.Walk.Assembly

/-!
How the texts of standard blocks begin and end. The first word of a statement announces the bodies
that it has, and no text of an expression ends in an empty pair of brackets.
-/
namespace AgentBlocks

open Text

/-- A name in the field `NAME`, read without the blanks around it, is no reserved word. -/
def Block.Unreserved (b : Block) : Prop :=
  ∀ s, b.fieldText? "NAME" = some s → isReservedWord (String.ofList (trim s.toList)) = false

theorem Block.Unreserved.nameOr_setup {b : Block} (hb : b.Unreserved) :
    isValidName (b.nameOr "NAME" "setup") = true ∧ b.nameOr "NAME" "setup" ≠ "end" := by
  have hsetup : isValidName "setup" = true ∧ "setup" ≠ "end" := by decide
  unfold nameOr
  split
  · rename_i s hs
    dsimp only
    split
    · rename_i hvalid
      refine ⟨by rwa [isValidName, String.toList_ofList], fun hend => ?_⟩
      have hreserved : isReservedWord "end" = true := by decide +kernel
      have hfree := hb s hs
      rw [hend, hreserved] at hfree
      cases hfree
    · exact hsetup
  · exact hsetup

namespace Outline

theorem isNamePart_of_isValidName {s : String} (h : isValidName s = true) :
    ∀ c ∈ s.toList, isNamePart c = true := by
  unfold isValidName at h
  cases hchars : s.toList with
  | nil => exact nofun
  | cons c rest =>
      rw [hchars] at h
      obtain ⟨hstart, hrest⟩ := Bool.and_eq_true_iff.1 h
      refine List.forall_mem_cons.2 ⟨?_, List.all_eq_true.1 hrest⟩
      simp [isNamePart, hstart]

theorem begins_of_isValidName {s : String} (h : isValidName s = true) (hend : s ≠ "end") :
    Begins s .plain := by
  have hparts := isNamePart_of_isValidName h
  have hblank : ' ' ∉ s.toList := fun hmem => absurd (hparts _ hmem) (by decide)
  have hrow : ∀ entry ∈ closings, entry.1 = "end" ∨ isValidName entry.1 = false := by decide
  refine ⟨fun hmem => absurd (hparts _ hmem) (by decide), ?_, ?_, ?_⟩
  · rintro rfl
    exact absurd h (by decide)
  · refine List.dropWhile_eq_self_iff.2 fun hlength hfirst => hblank ?_
    rw [← beq_iff_eq.1 hfirst]
    exact List.getElem_mem hlength
  · intro rest hrest
    obtain rfl := hrest rfl
    have hclosings : closings.find? (·.1.toList == s.toList) = none := by
      refine List.find?_eq_none.2 fun entry hentry hs => ?_
      obtain rfl : entry.1 = s := String.toList_inj.1 (beq_iff_eq.1 hs)
      rcases hrow entry hentry with hword | hinvalid
      · exact hend hword
      · rw [h] at hinvalid
        cases hinvalid
    rw [String.append_empty, ofRow?, hclosings, ending?, if_neg hblank]
    rfl

theorem begins_of_beginning {first head : String} {ending : Ending}
    (hfirst : (first, ending) ∈ beginnings) (hstarts : first.toList <+: head.toList)
    (hblank : ' ' ∈ head.toList) (hfeed : '\n' ∉ head.toList) : Begins head ending := by
  have hchars : ∀ e ∈ beginnings, e.1.toList ≠ [] ∧
      e.1.toList.dropWhile (· == ' ') = e.1.toList := by decide
  have hrow : ∀ e ∈ beginnings, ∀ entry ∈ closings, ¬e.1.toList <+: entry.1.toList := by decide
  have hdistinct : ∀ e ∈ beginnings, ∀ e' ∈ beginnings, e.1.toList <+: e'.1.toList → e = e' := by
    decide
  obtain ⟨hne, hdrop⟩ := hchars _ hfirst
  refine ⟨hfeed, ?_, ?_, ?_⟩
  · rintro rfl
    exact hne (List.prefix_nil.1 hstarts)
  · obtain ⟨more, hmore⟩ := hstarts
    rw [← hmore, List.dropWhile_append, hdrop, if_neg]
    simpa using hne
  · intro rest _
    have hlonger : first.toList <+: (head ++ rest).toList := by
      rw [String.toList_append]
      exact hstarts.trans (List.prefix_append _ _)
    have hclosings : closings.find? (·.1.toList == (head ++ rest).toList) = none := by
      refine List.find?_eq_none.2 fun entry hentry hs => hrow _ hfirst entry hentry ?_
      rwa [beq_iff_eq.1 hs]
    have hfind : beginnings.find? (·.1.toList.isPrefixOf (head ++ rest).toList) =
        some (first, ending) := by
      obtain ⟨e, he⟩ : ∃ e,
          beginnings.find? (·.1.toList.isPrefixOf (head ++ rest).toList) = some e := by
        rw [← Option.isSome_iff_exists, List.find?_isSome]
        exact ⟨_, hfirst, List.isPrefixOf_iff_prefix.2 hlonger⟩
      have hmem := List.mem_of_find?_eq_some he
      have hstarts' : e.1.toList <+: (head ++ rest).toList := by
        simpa using List.find?_some he
      -- of two prefixes of a row one is a prefix of the other
      rcases List.prefix_or_prefix_of_prefix hstarts' hlonger with h | h
      · rw [he, hdistinct _ hmem _ hfirst h]
      · rw [he, hdistinct _ hfirst _ hmem h]
    have hblank' : ' ' ∈ (head ++ rest).toList := by simp [hblank]
    rw [ofRow?, hclosings, ending?, if_pos hblank', hfind]
    rfl

/-- The pieces before the bodies begin a statement with the ending. -/
inductive Opens : List Piece → Ending → Prop
  | word {word} : isValidName word = true → word ≠ "end" → Opens [.text word] .plain
  | phrase (first) {text rest ending} : (first, ending) ∈ beginnings → ending ≠ .branches →
      first.toList <+: text.toList → ' ' ∈ text.toList → Opens (.text text :: rest) ending
  | command {name rest} : (name ++ " ", .plain) ∈ beginnings →
      Opens (.text name :: .text " " :: rest) .plain
  | branches {slot bound} : Opens [.text "ifelse ", .value slot bound, .text " "] .branches

theorem Opens.begins {s : Surroundings} {block : String → Phrase → Prop}
    {chain : String → String → Prop} {b : Block} {type : BlockType} {pieces : List Piece}
    {ending : Ending} {head : String} (h : Opens pieces ending)
    (hfills : s.Fills block chain b type pieces head) (hfeed : '\n' ∉ head.toList) :
    Begins head ending := by
  cases h with
  | word hname hend =>
      rw [hfills.eq_text]
      exact begins_of_isValidName hname hend
  | phrase first hfirst _ hstarts hblank =>
      cases hfills with
      | text text hrest =>
          refine begins_of_beginning hfirst ?_ ?_ hfeed
          · rw [String.toList_append]
            exact hstarts.trans (List.prefix_append _ _)
          · simp [hblank]
  | command hname =>
      cases hfills with
      | text name hrest =>
          cases hrest with
          | text blank hrest =>
              refine begins_of_beginning hname ?_ (by simp) hfeed
              simp [String.toList_append]
  | branches =>
      cases hfills with
      | text first hrest =>
          have hifelse : ("ifelse ", Ending.branches) ∈ beginnings := by decide
          refine begins_of_beginning hifelse ?_ (by simp) hfeed
          rw [String.toList_append]
          exact List.prefix_append _ _

end Outline

/-- Whether the last value stands at the end, or before a last bracket. -/
def Piece.endsInValue : List Piece → Bool
  | [.value _ _] => true
  | [.value _ _, .text s] => s == "]"
  | _ :: rest => endsInValue rest
  | [] => false

namespace Surroundings

variable {s : Surroundings} {block : String → Phrase → Prop} {chain : String → String → Prop}
  {b : Block} {type : BlockType} {pieces : List Piece} {text : String}
  (hdefault : ∀ slot, Inline (type.defaultFor slot))
  (hblock : ∀ id phrase, block id phrase → Inline phrase.code)
include hdefault hblock

theorem Fills.inline_value {slot : String} {bound : Bound}
    (h : s.Fills block chain b type [.value slot bound] text) : Inline text := by
  cases h with
  | emptyInput _ hnil =>
      cases hnil
      rw [String.append_empty]
      exact hdefault slot
  | input _ hchild hnil =>
      cases hnil
      rw [String.append_empty]
      exact (hblock _ _ hchild).enclose bound _

/-- Pieces without chains stand on one line when what is plugged into them does. -/
theorem Fills.feed_not_mem (h : s.Fills block chain b type pieces text)
    (hbody : ∀ piece ∈ pieces, piece.isBody = false) (hpieces : pieces.all Piece.inline = true) :
    '\n' ∉ text.toList := by
  induction pieces generalizing text with
  | nil =>
      cases h
      simp
  | cons piece rest ih =>
      obtain ⟨hpiece, hrest⟩ := List.forall_mem_cons.1 hbody
      obtain ⟨hinline, hinlines⟩ := Bool.and_eq_true_iff.1 hpieces
      obtain ⟨code, code', hcode, hcode', rfl⟩ := h.uncons
      have hfirst : '\n' ∉ code.toList := by
        cases piece with
        | text word =>
            rw [hcode.eq_text]
            exact (Piece.inline_text.1 hinline).1
        | value slot bound => exact (hcode.inline_value hdefault hblock).feed
        | body slot form => cases hpiece
      rw [String.toList_append, List.mem_append, not_or]
      exact ⟨hfirst, ih hcode' hrest hinlines⟩

/-- No empty pair of brackets stands at the end, whatever stands before. -/
theorem Fills.not_suffix (h : s.Fills block chain b type pieces text)
    (hpieces : Piece.endsInValue pieces = true) (before : List Char) :
    ¬"[]".toList <:+ before ++ text.toList := by
  fun_induction Piece.endsInValue pieces generalizing text before with
  | case1 slot bound => exact (h.inline_value hdefault hblock).not_suffix before
  | case2 slot bound word =>
      obtain rfl : word = "]" := beq_iff_eq.1 hpieces
      obtain ⟨code, code', hcode, hcode', rfl⟩ := h.uncons
      have hvalue := hcode.inline_value hdefault hblock
      intro hsuffix
      have hsplit : ['['] ++ "]".toList <:+ (before ++ code.toList) ++ "]".toList := by
        rw [hcode'.eq_text, String.toList_append, ← List.append_assoc] at hsuffix
        exact hsuffix
      rw [List.suffix_append_inj_of_length_eq rfl] at hsplit
      -- a tidy text does not end in an opening bracket
      obtain ⟨front, hfront⟩ := hsplit.1
      have hlast := congrArg List.getLast? hfront
      rw [List.getLast?_concat, List.getLast?_append_of_ne_nil] at hlast
      · exact hvalue.tidy.getLast?_ne hlast.symm
      · simpa using hvalue.tidy.ne_empty
  | case3 piece rest _ _ ih =>
      obtain ⟨code, code', hcode, hcode', rfl⟩ := h.uncons
      rw [String.toList_append, ← List.append_assoc]
      exact ih hcode' hpieces _
  | case4 => cases hpieces

/-- The text of a word, or of pieces that end in a value, is a line that does not end in an empty
pair of brackets. -/
theorem Fills.inline {t : Template} (h : s.Fills block chain b type t.pieces text)
    (htidy : Tidy text) (hinline : t.line.all Piece.inline = true) (htail : t.tail = [])
    (hends : (∃ word, t.pieces = [.text word]) ∨ Piece.endsInValue t.pieces = true) :
    Inline text := by
  have hline : t.pieces = t.line := by
    rw [← t.line_append_tail, htail, List.append_nil]
  refine ⟨htidy, ?_, ?_⟩
  · rw [hline] at h
    exact h.feed_not_mem hdefault hblock (fun _ => Template.isBody_of_mem_line) hinline
  · rcases hends with ⟨word, hword⟩ | hvalue
    · rw [← hline, hword] at hinline
      rw [hword] at h
      rw [h.eq_text]
      exact (Piece.inline_text.1 (Bool.and_eq_true_iff.1 hinline).1).2
    · exact h.not_suffix hdefault hblock hvalue []

/-- What stands before two bodies does not end in an empty pair of brackets. -/
theorem Fills.not_suffix_of_opens (h : s.Fills block chain b type pieces text)
    (hopens : Outline.Opens pieces .branches) : ¬"[] ".toList <:+ text.toList := by
  cases hopens with
  | phrase _ _ hne => exact absurd rfl hne
  | branches =>
      obtain ⟨code, code', hcode, hcode', rfl⟩ := h.uncons
      obtain ⟨value, blank, hvalue, hblank, rfl⟩ := hcode'.uncons
      intro hsuffix
      have hsplit : "[]".toList ++ " ".toList <:+ (code.toList ++ value.toList) ++ " ".toList := by
        rw [hblank.eq_text, String.toList_append, String.toList_append, ← List.append_assoc]
          at hsuffix
        exact hsuffix
      rw [List.suffix_append_inj_of_length_eq rfl] at hsplit
      exact (hvalue.inline_value hdefault hblock).not_suffix _ hsplit.1

end Surroundings

namespace Standard

open Outline

/-- The text of an expression has no chains in it and is a single word or ends in a value. -/
theorem ends_designs : ∀ d ∈ designs, d.kind = .value → ∀ b r,
    (d.template b r).tail = [] ∧
      ((∃ word, (d.template b r).pieces = [.text word]) ∨
        Piece.endsInValue (d.template b r).pieces = true) := by
  simp only [designs, literalBlocks, operatorBlocks, agentSetBlocks, variableBlocks, controlBlocks,
    procedureBlocks, agentCommandBlocks, turtleBlocks, List.forall_mem_append, List.forall_mem_cons]
  repeat' apply And.intro
  all_goals first
    | exact List.forall_mem_nil _
    | exact fun _ _ _ => ⟨rfl, .inl ⟨_, rfl⟩⟩
    | exact fun _ _ _ => ⟨rfl, .inr rfl⟩
    | exact fun hkind => ResultKind.noConfusion hkind

/-- The statement of a design begins as its bodies are. -/
def Begun (d : Design) : Prop :=
  d.kind = .statement → ∀ b r, b.Unreserved →
    ∃ ending : Ending, (d.template b r).tail = ending.pieces ∧ Opens (d.template b r).line ending

theorem begun_of_value {d : Design} (h : d.kind = .value) : Begun d := by
  intro hkind
  rw [h] at hkind
  cases hkind

theorem begun_keyword {name word : String} (hword : isValidName word = true)
    (hend : word ≠ "end") : Begun (.keywordStatement name word) :=
  fun _ _ _ _ => ⟨.plain, rfl, .word hword hend⟩

theorem begun_command {d : Design} {keyword slot : String}
    (htemplate : ∀ b r, d.template b r = .command keyword [slot])
    (h : (keyword ++ " ", .plain) ∈ beginnings) : Begun d := by
  intro _ b r _
  rw [htemplate]
  exact ⟨.plain, rfl, .command h⟩

theorem begun_looping {name before slot after default : String} (first : String)
    (hfirst : (first, .loop) ∈ beginnings) (hstarts : first.toList <+: before.toList)
    (hblank : ' ' ∈ before.toList) : Begun (looping name before slot after default) :=
  fun _ _ _ _ => ⟨.loop, rfl, .phrase first hfirst nofun hstarts hblank⟩

theorem begun_definition {name keyword : String}
    (h : (keyword ++ " ", .definition) ∈ beginnings) : Begun (definition name keyword) := by
  intro _ b r _
  exact ⟨.definition, rfl, .phrase _ h nofun (by simp) (by simp)⟩

theorem begun_creation {name verb : String} (bareTurtles : Bool)
    (hbreed : (verb ++ "-", .optional) ∈ beginnings)
    (hbare : bareTurtles = true → (verb ++ " ", .optional) ∈ beginnings) :
    Begun (creation name verb bareTurtles) := by
  intro _ b r _
  refine ⟨.optional, rfl, ?_⟩
  by_cases h : (bareTurtles && r.pluralOf (b.fieldOr "BREED" "turtles") == "turtles") = true
  · refine .phrase _ (hbare (Bool.and_eq_true_iff.1 h).1) nofun ?_ (by simp)
    simp [h]
  · refine .phrase _ hbreed nofun ?_ (by simp)
    simp [h]

theorem begun_variableBlocks : ∀ d ∈ variableBlocks, Begun d := by
  simp only [variableBlocks, List.forall_mem_cons]
  refine ⟨begun_of_value rfl, ?set, ?change, ?declare, begun_of_value rfl, List.forall_mem_nil _⟩
  case set =>
    intro _ b r _
    exact ⟨.plain, rfl, .phrase "set " (by decide) (by simp) (by simp) (by simp)⟩
  case change =>
    intro _ b r _
    exact ⟨.plain, rfl, .phrase "set " (by decide) (by simp) (by simp) (by simp)⟩
  case declare =>
    intro _ b r _
    exact ⟨.plain, rfl, .phrase "let " (by decide) (by simp) (by simp) (by simp)⟩

theorem begun_controlBlocks : ∀ d ∈ controlBlocks, Begun d := by
  simp only [controlBlocks, List.forall_mem_cons]
  exact ⟨begun_looping "if " (by decide) (by decide) (by decide),
    fun _ _ _ _ => ⟨.branches, rfl, .branches⟩,
    begun_looping "repeat " (by decide) (by decide) (by decide),
    begun_looping "while " (by decide) (by decide) (by decide),
    begun_keyword rfl (by decide), begun_keyword rfl (by decide), begun_keyword rfl (by decide),
    begun_keyword rfl (by decide), begun_command (fun _ _ => rfl) (by decide),
    begun_command (fun _ _ => rfl) (by decide), List.forall_mem_nil _⟩

theorem begun_procedureBlocks : ∀ d ∈ procedureBlocks, Begun d := by
  simp only [procedureBlocks, List.forall_mem_cons]
  refine ⟨begun_definition (by decide), begun_definition (by decide),
    begun_command (fun _ _ => rfl) (by decide), ?call, begun_of_value rfl, List.forall_mem_nil _⟩
  case call =>
    intro _ b r hb
    exact ⟨.plain, rfl, .word hb.nameOr_setup.1 hb.nameOr_setup.2⟩

theorem begun_agentCommandBlocks : ∀ d ∈ agentCommandBlocks, Begun d := by
  simp only [agentCommandBlocks, List.forall_mem_cons]
  refine ⟨?ask, begun_creation false (by decide) (by simp),
    begun_creation true (by decide) fun _ => by decide,
    begun_creation true (by decide) fun _ => by decide, ?link, begun_keyword rfl (by decide),
    List.forall_mem_nil _⟩
  case ask =>
    exact fun _ _ _ _ => ⟨.loop, rfl, .phrase "ask " (by decide) (by simp) (by decide) (by decide)⟩
  case link =>
    intro _ b r _
    exact ⟨.optional, rfl, .phrase "create-" (by decide) (by simp) (by simp) (by simp)⟩

theorem begun_turtleBlocks : ∀ d ∈ turtleBlocks, Begun d := by
  simp only [turtleBlocks, List.forall_mem_cons]
  refine ⟨begun_command (fun _ _ => rfl) (by decide), begun_command (fun _ _ => rfl) (by decide),
    begun_command (fun _ _ => rfl) (by decide), begun_command (fun _ _ => rfl) (by decide), ?both,
    ?property, List.forall_mem_nil _⟩
  case both => exact fun _ _ _ _ => ⟨.plain, rfl, .command (by decide)⟩
  case property =>
    intro _ b r _
    exact ⟨.plain, rfl, .phrase "set " (by decide) (by simp) (by simp) (by simp)⟩

theorem begun_designs : ∀ d ∈ designs, Begun d := by
  have hvalues : ∀ d ∈ literalBlocks ++ operatorBlocks ++ agentSetBlocks, d.kind = .value := by
    decide
  simp only [List.forall_mem_append] at hvalues
  obtain ⟨⟨hliterals, hoperators⟩, hagentSets⟩ := hvalues
  simp only [designs, List.forall_mem_append]
  exact ⟨⟨⟨⟨⟨⟨⟨fun d hd => begun_of_value (hliterals d hd), fun d hd =>
    begun_of_value (hoperators d hd)⟩, fun d hd => begun_of_value (hagentSets d hd)⟩,
    begun_variableBlocks⟩, begun_controlBlocks⟩, begun_procedureBlocks⟩,
    begun_agentCommandBlocks⟩, begun_turtleBlocks⟩

end Standard

end AgentBlocks
