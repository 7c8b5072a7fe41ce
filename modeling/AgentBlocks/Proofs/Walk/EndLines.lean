import AgentBlocks.Proofs.Catalog.EndWords
import AgentBlocks.Proofs.Walk.Layout
import AgentBlocks.Proofs.Walk.Occurrences

/-!
The lines of a program that consist of the word `end`. Each definition of a procedure in a chain
ends in one, and each block in a chain prints one whose author has typed that name; nothing else
does, except for a definition in a value slot when nothing follows it on its last line.
-/
namespace AgentBlocks

open Text

def Block.defines (b : Block) : Bool := decide (b.blockType ∈ Standard.definitionNames)

/-- The text of the block is `end`, because its author has typed that name. -/
def Block.isEnd (b : Block) : Bool := decide (b.blockType ∈ Standard.bareNames) && b.namesEnd

namespace BodyForm

theorem endLines_inBrackets (body : String) : Shut (inBrackets body) ∧
    endLinesInside (inBrackets body) = endLines body ∧
    endLinesBelow (inBrackets body) = endLines body := by
  unfold inBrackets
  split
  · rename_i hempty
    rw [String.isEmpty_iff] at hempty
    subst hempty
    exact ⟨.inl (by decide), by decide +kernel, by decide +kernel⟩
  · have hlines : "[\n" ++ body ++ "\n]" = "[" ++ "\n" ++ body ++ "\n" ++ "]" := by
      simp [← String.toList_inj]
    have hbracket : Settled "]".toList := settled_of_striking (by decide)
    have hopening : endLinesBelow "[" = 0 ∧ endLines "]" = 0 := by decide +kernel
    rw [hlines]
    refine ⟨.inr ⟨_, "]", rfl, by decide, hbracket.closes⟩, ?_, ?_⟩
    · rw [endLinesInside_feed _ (by decide), endLinesBelow_feed, hopening.1, Nat.zero_add]
    · rw [endLinesBelow_feed, endLinesBelow_feed, hopening.1, hopening.2, Nat.zero_add,
        Nat.add_zero]

/-- A body in brackets shares none of its lines. -/
theorem endLines_text {form : BodyForm} (h : form = .bracketed ∨ form = .optional)
    (body : String) : Shut (form.text body) ∧ endLines body ≤ endLinesInside (form.text body) ∧
      endLinesBelow (form.text body) ≤ endLines body := by
  obtain ⟨hshut, hinside, hbelow⟩ := endLines_inBrackets body
  rcases h with rfl | rfl
  · exact ⟨hshut, hinside.ge, hbelow.le⟩
  · unfold text
    dsimp only
    split
    · rename_i hempty
      rw [String.isEmpty_iff] at hempty
      subst hempty
      exact ⟨.inl (by decide), by decide +kernel, by decide +kernel⟩
    · have hblank : Shut " " := .inl (by decide)
      have hle := endLinesInside_add_le " " (inBrackets body)
      refine ⟨hblank.append hshut, ?_, ?_⟩
      · rw [← hinside]
        exact (Nat.le_add_left _ _).trans hle
      · rw [endLinesBelow_append (by decide), hbelow]

/-- The chain of a definition stands on lines of its own before `end`. -/
theorem endLines_ownLines (body : String) : Shut (BodyForm.ownLines.text body ++ "\nend") ∧
    endLines body ≤ endLinesInside (BodyForm.ownLines.text body ++ "\nend") ∧
    endLinesBelow (BodyForm.ownLines.text body ++ "\nend") = endLines body + 1 := by
  have hend : endLines "end" = 1 ∧ endLinesBelow "" = 0 := by decide +kernel
  unfold text
  dsimp only
  split
  · rename_i hempty
    rw [String.isEmpty_iff] at hempty
    subst hempty
    exact ⟨.inr ⟨"", "end", rfl, by decide, closes_end⟩, by decide +kernel, by decide +kernel⟩
  · have hlines : "\n" ++ body ++ "\nend" = "" ++ "\n" ++ body ++ "\n" ++ "end" := by
      simp [← String.toList_inj]
    rw [hlines]
    refine ⟨.inr ⟨_, "end", rfl, by decide, closes_end⟩, ?_, ?_⟩
    · rw [endLinesInside_feed _ (by decide), endLinesBelow_feed]
      exact Nat.le_add_left _ _
    · rw [endLinesBelow_feed, endLinesBelow_feed, hend.1, hend.2, Nat.zero_add]

end BodyForm

/-- The text is settled by what it begins with, so its first line is no line of `end`. -/
theorem firstLine_of_settled {code : String} (hfeed : '\n' ∉ code.toList)
    (h : Settled code.toList) (more : String) : isEndLine (firstLine (code ++ more)) = false := by
  rw [firstLine_append hfeed]
  exact h _

theorem Bound.firstLine_enclose {code : String}
    (h : '\n' ∈ code.toList → isEndLine (firstLine code) = false) (bound : Bound) (p : Precedence)
    (henclosed : '\n' ∈ (bound.enclose code p).toList) :
    isEndLine (firstLine (bound.enclose code p)) = false := by
  unfold enclose at henclosed ⊢
  split at henclosed
  · rename_i hparentheses
    rw [if_pos hparentheses, String.append_assoc]
    exact firstLine_of_settled (by decide) (settled_of_striking (by decide)) _
  · rename_i hparentheses
    rw [if_neg hparentheses]
    exact h henclosed

/-- The text of the piece shares no line of `end` with its neighbours. -/
def Piece.shuts : Piece → Bool
  | .text word => decide ('\n' ∉ word.toList)
  | .value _ _ => true
  | .body _ form => decide (form = .bracketed ∨ form = .optional)

theorem Template.shuts_line {t : Template} (h : t.line.all Piece.inline = true) :
    t.line.all Piece.shuts = true := by
  refine List.all_eq_true.2 fun piece hpiece => ?_
  have hbody := Template.isBody_of_mem_line hpiece
  have hinline := List.all_eq_true.1 h piece hpiece
  cases piece with
  | text word => exact decide_eq_true (Piece.inline_text.1 hinline).1
  | value slot bound => rfl
  | body slot form => cases hbody

namespace Surroundings

/-- How often a block with the property occurs in the role. -/
def count (s : Surroundings) (role : Role) (p : Block → Bool) (os : List Occurrence) : Nat :=
  os.countP fun o => decide (o.role = role) && (s.workspace.block? o.id).any p

/-- The lines of `end` that the occurrences print for certain. -/
def tally (s : Surroundings) (os : List Occurrence) : Nat :=
  s.count .chain Block.defines os + s.count .chain Block.isEnd os

/-- The lines of `end` that may be continued, those of definitions in value slots. -/
def inlined (s : Surroundings) (os : List Occurrence) : Nat := s.count .value Block.defines os

/-- The number of lines is that of the occurrences, up to those that may be continued. -/
structure Counts (s : Surroundings) (os : List Occurrence) (n : Nat) : Prop where
  least : s.tally os ≤ n
  most : n ≤ s.tally os + s.inlined os

/-- The lines of `end` of a part of a block: those of the occurrences in it, and `n` more. The first
line is left to what stands before it, the last one to what follows. -/
structure Prints (s : Surroundings) (n : Nat) (os : List Occurrence) (code : String) : Prop where
  shut : Shut code
  inside : s.tally os ≤ endLinesInside code
  least : s.tally os + n ≤ endLinesBelow code
  most : endLinesBelow code ≤ s.tally os + s.inlined os + n

section Count

variable {s : Surroundings} {os os' : List Occurrence} {n m : Nat} {code code' : String}

theorem count_append (role : Role) (p : Block → Bool) (os os' : List Occurrence) :
    s.count role p (os ++ os') = s.count role p os + s.count role p os' := List.countP_append

theorem tally_append (os os' : List Occurrence) :
    s.tally (os ++ os') = s.tally os + s.tally os' := by
  simp only [tally, count_append]
  omega

theorem inlined_append (os os' : List Occurrence) :
    s.inlined (os ++ os') = s.inlined os + s.inlined os' := s.count_append _ _ os os'

theorem count_after (role : Role) (p : Block → Bool) (edge : Link × String)
    (os : List Occurrence) : s.count role p (os.map (.after edge)) = s.count role p os := by
  rw [count, List.countP_map]
  rfl

@[simp] theorem tally_after (edge : Link × String) (os : List Occurrence) :
    s.tally (os.map (.after edge)) = s.tally os := by
  simp only [tally, count_after]

@[simp] theorem inlined_after (edge : Link × String) (os : List Occurrence) :
    s.inlined (os.map (.after edge)) = s.inlined os := s.count_after _ _ edge os

theorem counts_nil : s.Counts [] 0 := ⟨Nat.le_refl 0, Nat.zero_le _⟩

theorem Counts.append (h : s.Counts os n) (h' : s.Counts os' m) :
    s.Counts (os ++ os') (n + m) := by
  have hmost := Nat.add_le_add h.most h'.most
  refine ⟨(tally_append os os').trans_le (Nat.add_le_add h.least h'.least), ?_⟩
  rw [tally_append, inlined_append]
  omega

theorem Counts.after (h : s.Counts os n) (edge : Link × String) :
    s.Counts (os.map (.after edge)) n := by
  obtain ⟨hleast, hmost⟩ := h
  constructor <;> simpa

theorem prints_of_not_mem (h : '\n' ∉ code.toList) : s.Prints 0 [] code :=
  ⟨.inl h, Nat.zero_le _, Nat.zero_le _, (endLinesBelow_of_not_mem h).le⟩

theorem Prints.after (h : s.Prints n os code) (edge : Link × String) :
    s.Prints n (os.map (.after edge)) code := by
  obtain ⟨hshut, hinside, hleast, hmost⟩ := h
  constructor <;> simpa

theorem Prints.append (h : s.Prints 0 os code) (h' : s.Prints n os' code') :
    s.Prints n (os ++ os') (code ++ code') := by
  refine ⟨h.shut.append h'.shut, ?_, ?_, ?_⟩
  · rw [tally_append]
    exact (Nat.add_le_add h.inside h'.inside).trans (endLinesInside_add_le code code')
  · rw [tally_append, Nat.add_assoc]
    exact (Nat.add_le_add h.inside h'.least).trans (endLinesInside_add_below_le code code')
  · have hle := (h.shut.endLinesBelow_append_le code').trans (Nat.add_le_add h.most h'.most)
    rw [tally_append, inlined_append]
    omega

theorem Prints.enclose (h : s.Prints 0 os code) (bound : Bound) (p : Precedence) :
    s.Prints 0 os (bound.enclose code p) := by
  unfold Bound.enclose
  split
  · have hopen : s.Prints 0 [] "(" := prints_of_not_mem (by decide)
    have hclose : s.Prints 0 [] ")" := prints_of_not_mem (by decide)
    have hall := (hopen.append h).append hclose
    rwa [List.nil_append, List.append_nil] at hall
  · exact h

end Count

/-- The lines of `end` of a part of a block with the given references. -/
def PrintsAt (s : Surroundings) (n : Nat) (edges : List (Link × String)) (code : String) : Prop :=
  ∃ os, Lists os (s.OccursAt edges) ∧ s.Prints n os code

def CountsChain (s : Surroundings) (head code : String) : Prop :=
  ∃ os, Lists os (s.OccursFrom .chain head) ∧ s.Counts os (endLines code)

/-- The text of an expression. Its first line is no line of `end`, unless it is the only one. -/
structure PrintsValue (s : Surroundings) (id : String) (phrase : Phrase) : Prop where
  first : '\n' ∈ phrase.code.toList → isEndLine (firstLine phrase.code) = false
  prints : ∃ os, Lists os (s.OccursFrom .value id) ∧ s.Prints 0 os phrase.code

def CountsStatement (s : Surroundings) (id : String) (phrase : Phrase) : Prop :=
  ∃ os, Lists os (s.OccursInside id) ∧ s.Counts (⟨[], .chain, id⟩ :: os) (endLines phrase.code)

/-- The lines of `end` of a block in its role. -/
def Tallies (s : Surroundings) : Role → String → Phrase → Prop
  | .value => s.PrintsValue
  | .chain => s.CountsStatement

section Fills

variable {s : Surroundings} {b : Block} {type : BlockType} {block : String → Phrase → Prop}
  {chain : String → String → Prop} {pieces : List Piece} {code : String}

theorem printsAt_of_not_mem (h : '\n' ∉ code.toList) : s.PrintsAt 0 [] code :=
  ⟨[], lists_nil, prints_of_not_mem h⟩

/-- A filled or empty statement slot: its text and the occurrences in it. -/
theorem Fills.counts_body {slot : String} {form : BodyForm}
    (h : s.Fills block s.CountsChain b type [.body slot form] code) :
    ∃ body os, code = form.text body ∧ Lists os (s.OccursAt (b.edges [.body slot])) ∧
      s.Counts os (endLines body) := by
  cases h with
  | emptyBody hslot hnil =>
      cases hnil
      have hedges : b.edges [.body slot] = [] := Block.edges_cons_none hslot
      exact ⟨"", [], String.append_empty, hedges ▸ lists_nil, endLines_empty ▸ counts_nil⟩
  | body hslot hchain hnil =>
      cases hnil
      obtain ⟨os, hos, hcounts⟩ := hchain
      have hedges : b.edges [.body slot] = [(.body slot, _)] := Block.edges_cons_some hslot
      refine ⟨_, _, String.append_empty, hedges ▸ lists_after hos, ?_⟩
      rw [endLines_indent]
      exact hcounts.after _

theorem Fills.prints_piece {piece : Piece} (hdefault : ∀ slot, '\n' ∉ (type.defaultFor slot).toList)
    (h : s.Fills s.PrintsValue s.CountsChain b type [piece] code) (hpiece : piece.shuts = true) :
    s.PrintsAt 0 (b.edges piece.link?.toList) code := by
  cases piece with
  | text word =>
      rw [h.eq_text]
      exact printsAt_of_not_mem (of_decide_eq_true hpiece)
  | value slot bound =>
      rw [Piece.link?, Option.toList_some]
      cases h with
      | emptyInput hslot hnil =>
          cases hnil
          have hedges : b.edges [.input slot] = [] := Block.edges_cons_none hslot
          rw [String.append_empty, hedges]
          exact printsAt_of_not_mem (hdefault slot)
      | input hslot hchild hnil =>
          cases hnil
          obtain ⟨os, hos, hprints⟩ := hchild.prints
          have hedges : b.edges [.input slot] = [(.input slot, _)] := Block.edges_cons_some hslot
          rw [String.append_empty, hedges]
          exact ⟨_, lists_after hos, (hprints.enclose bound _).after _⟩
  | body slot form =>
      obtain ⟨body, os, rfl, hos, hcounts⟩ := h.counts_body
      obtain ⟨hshut, hinside, hbelow⟩ := BodyForm.endLines_text (of_decide_eq_true hpiece) body
      have hbetween := endLinesInside_le_below (form.text body)
      have hleast := hcounts.least.trans hinside
      exact ⟨os, hos, hshut, hleast, hleast.trans hbetween, hbelow.trans hcounts.most⟩

theorem PrintsAt.append {n : Nat} {edges edges' : List (Link × String)} {code' : String}
    (hnodup : (edges ++ edges').Nodup) (h : s.PrintsAt 0 edges code)
    (h' : s.PrintsAt n edges' code') : s.PrintsAt n (edges ++ edges') (code ++ code') := by
  obtain ⟨os, hos, hprints⟩ := h
  obtain ⟨os', hos', hprints'⟩ := h'
  exact ⟨os ++ os', lists_append hos hos' hnodup, hprints.append hprints'⟩

/-- The lines of `end` of pieces that share none are those of each piece. -/
theorem Fills.prints (hdefault : ∀ slot, '\n' ∉ (type.defaultFor slot).toList)
    (h : s.Fills s.PrintsValue s.CountsChain b type pieces code)
    (hpieces : pieces.all Piece.shuts = true)
    (hnodup : (b.edges (pieces.filterMap Piece.link?)).Nodup) :
    s.PrintsAt 0 (b.edges (pieces.filterMap Piece.link?)) code := by
  induction pieces generalizing code with
  | nil =>
      cases h
      exact printsAt_of_not_mem (by simp)
  | cons piece rest ih =>
      obtain ⟨hpiece, hrest⟩ := Bool.and_eq_true_iff.1 hpieces
      obtain ⟨first, more, hfirst, hmore, rfl⟩ := h.uncons
      have hlinks : (piece :: rest).filterMap Piece.link? =
          piece.link?.toList ++ rest.filterMap Piece.link? := by
        cases piece <;> rfl
      rw [hlinks, Block.edges_append] at hnodup ⊢
      exact .append hnodup (hfirst.prints_piece hdefault hpiece)
        (ih hmore hrest (List.nodup_append.1 hnodup).2.1)

theorem Fills.prints_definition
    (h : s.Fills block s.CountsChain b type Ending.definition.pieces code) :
    s.PrintsAt 1 (b.edges [.body "STACK"]) code := by
  obtain ⟨own, last, hown, hlast, rfl⟩ := Fills.uncons h
  obtain ⟨body, os, rfl, hos, hcounts⟩ := hown.counts_body
  obtain ⟨hshut, hinside, hbelow⟩ := BodyForm.endLines_ownLines body
  rw [hlast.eq_text]
  refine ⟨os, hos, hshut, hcounts.least.trans hinside, ?_, ?_⟩
  · exact (Nat.add_le_add_right hcounts.least 1).trans hbelow.ge
  · exact hbelow.trans_le (Nat.add_le_add_right hcounts.most 1)

/-- The lines of `end` after the first line of a block: those of the occurrences in its slots, and
one more when it is a definition. -/
theorem Fills.prints_template {t : Template} {ending : Ending}
    (hdefault : ∀ slot, '\n' ∉ (type.defaultFor slot).toList)
    (htail : t.tail = ending.pieces) (hinline : t.line.all Piece.inline = true)
    (h : s.Fills s.PrintsValue s.CountsChain b type t.pieces code)
    (hnodup : (b.edges t.links).Nodup) :
    s.PrintsAt (decide (ending = .definition)).toNat (b.edges t.links) code := by
  have hline := Template.shuts_line hinline
  rw [← t.line_append_tail, htail] at h
  rw [Template.links, ← t.line_append_tail, htail] at hnodup ⊢
  by_cases hdefinition : ending = .definition
  · subst hdefinition
    rw [List.filterMap_append, Block.edges_append] at hnodup ⊢
    obtain ⟨head, last, hhead, hlast, rfl⟩ := fills_append.1 h
    exact .append hnodup (hhead.prints hdefault hline (List.nodup_append.1 hnodup).1)
      hlast.prints_definition
  · have hending : ending.pieces.all Piece.shuts = true := by
      cases ending <;> first | rfl | exact absurd rfl hdefinition
    have hpieces : (t.line ++ ending.pieces).all Piece.shuts = true := by
      rw [List.all_append, hline, hending, Bool.true_and]
    rw [decide_eq_false hdefinition]
    exact h.prints hdefault hpieces hnodup

theorem Fills.firstLine_value {slot : String} {bound : Bound}
    (hdefault : ∀ slot, '\n' ∉ (type.defaultFor slot).toList)
    (h : s.Fills s.PrintsValue chain b type [.value slot bound] code)
    (hcode : '\n' ∈ code.toList) : isEndLine (firstLine code) = false := by
  cases h with
  | emptyInput _ hnil =>
      cases hnil
      rw [String.append_empty] at hcode
      exact absurd hcode (hdefault slot)
  | input _ hchild hnil =>
      cases hnil
      rw [String.append_empty] at hcode ⊢
      exact Bound.firstLine_enclose hchild.first bound _ hcode

theorem Fills.firstLine_settles (hdefault : ∀ slot, '\n' ∉ (type.defaultFor slot).toList)
    (h : s.Fills s.PrintsValue chain b type pieces code) (hsettles : Piece.Settles pieces)
    (hpieces : pieces.all Piece.shuts = true) (more : String) :
    isEndLine (firstLine (code ++ more)) = false := by
  cases hsettles with
  | text hword =>
      obtain ⟨hfeed, -⟩ := Bool.and_eq_true_iff.1 hpieces
      cases h with
      | text word hrest =>
          rw [String.append_assoc]
          exact firstLine_of_settled (of_decide_eq_true hfeed) (settled_of_striking hword) _
  | @name name rest hname =>
      obtain ⟨hfeed, -⟩ := Bool.and_eq_true_iff.1 hpieces
      cases h with
      | text name hrest =>
          cases hrest with
          | text blank hrest =>
              rw [← String.append_assoc, String.append_assoc]
              refine firstLine_of_settled ?_ hname _
              have hfeed : '\n' ∉ name.toList := of_decide_eq_true hfeed
              simp [hfeed]
  | @value slot bound word rest hword =>
      have hfeed := (Bool.and_eq_true_iff.1 (Bool.and_eq_true_iff.1 hpieces).2).1
      obtain ⟨value, code, hvalue, hrest, rfl⟩ := h.uncons
      obtain ⟨word', code', hword', hrest', rfl⟩ := hrest.uncons
      rw [hword'.eq_text, String.append_assoc]
      by_cases hlines : '\n' ∈ value.toList
      · rw [firstLine_append_of_mem hlines]
        exact hvalue.firstLine_value hdefault hlines
      · rw [String.append_assoc, ← String.append_assoc]
        refine firstLine_of_settled ?_ (settled_of_striking ?_) _
        · have hfeed : '\n' ∉ word.toList := of_decide_eq_true hfeed
          simp [hlines, hfeed]
        · rw [String.toList_append, List.any_append, hword, Bool.or_true]

/-- The first line of a block is a line of `end` when its author has typed that name. -/
theorem Fills.firstLine_template {d : Design}
    (hdefault : ∀ slot, '\n' ∉ (type.defaultFor slot).toList)
    (h : s.Fills s.PrintsValue chain b type (d.template b s.registries).pieces code)
    (hinline : (d.template b s.registries).line.all Piece.inline = true)
    (hname : d.name = b.blockType) (hopening : Standard.Opening s.registries d)
    (hadmits : d.Admits s.registries b) : isEndLine (firstLine code) = b.isEnd ∧
      ('\n' ∈ code.toList → isEndLine (firstLine code) = false) := by
  rcases hopening b hadmits with ⟨word, hpieces, hword⟩ | ⟨hother, hsettles⟩
  · rw [hpieces] at h
    have hline : (d.template b s.registries).line = [.text word] := by
      rw [Template.line, hpieces]
      rfl
    rw [hline, List.all_cons, Bool.and_eq_true] at hinline
    have hfeed := (Piece.inline_text.1 hinline.1).1
    rw [h.eq_text]
    refine ⟨?_, fun hmem => absurd hmem hfeed⟩
    rw [firstLine, List.splitOn_eq_singleton hfeed, List.headD_cons, hword, hname, Block.isEnd]
  · rw [← Template.line_append_tail] at h
    obtain ⟨head, last, hhead, -, rfl⟩ := fills_append.1 h
    have hfirst := hhead.firstLine_settles hdefault hsettles (Template.shuts_line hinline) last
    refine ⟨?_, fun _ => hfirst⟩
    rw [hfirst, Block.isEnd, ← hname, decide_eq_false hother, Bool.false_and]

end Fills

section Expansion

variable {s : Surroundings} {role : Role} {id head code : String} {phrase : Phrase}
  {reached : Role → String → Prop} (hs : s.catalog = .standard)

theorem counts_cons {b : Block} (os : List Occurrence) (hb : s.workspace.block? id = some b) :
    s.tally (⟨[], .chain, id⟩ :: os) = s.tally os + b.defines.toNat + b.isEnd.toNat ∧
      s.inlined (⟨[], .chain, id⟩ :: os) = s.inlined os ∧
      s.tally (⟨[], .value, id⟩ :: os) = s.tally os ∧
      s.inlined (⟨[], .value, id⟩ :: os) = s.inlined os + b.defines.toNat := by
  simp only [tally, inlined, count, List.countP_cons, hb, Option.any_some]
  cases b.defines <;> cases b.isEnd <;> simp <;> omega

include hs in
/-- The lines of `end` of a chain are those of its blocks. -/
theorem ChainOf.counts (h : s.ChainOf
    (fun id phrase => s.ExpandsBlock id phrase ∧ s.CountsStatement id phrase) head code) :
    s.CountsChain head code := by
  obtain ⟨blocks, hchain, hblocks, rfl⟩ := h
  have hsum : endLines (chainText blocks) = (blocks.map fun e => endLines e.2.code).sum := by
    rw [chainText, endLines_intercalate_feed, sum_endLines_filter, List.map_map]
    rfl
  unfold CountsChain
  rw [hsum]
  clear hsum
  have hsteady : s.catalog.Steady := hs ▸ Catalog.steady_standard
  induction blocks generalizing head with
  | nil => cases hchain
  | cons e rest ih =>
      obtain ⟨⟨⟨b, type, hlookup, -⟩, os, hos, hcounts⟩, hrest⟩ := List.forall_mem_cons.1 hblocks
      have hblock := (s.lookup_eq_ok.1 hlookup).1
      generalize hheads : ((e :: rest).map (·.1) : List String) = found at hchain
      cases hchain with
      | last hend =>
          obtain ⟨rfl, hnil⟩ := List.cons.inj hheads
          obtain rfl := List.map_eq_nil_iff.1 hnil
          rw [hblock, Option.bind_some] at hend
          have hedges : b.edges [.next] = [] := Block.edges_cons_none hend
          have hall := lists_chain hsteady hlookup hos (hedges ▸ lists_nil)
          rw [List.append_nil] at hall
          exact ⟨_, hall, by simpa using hcounts⟩
      | cons hnext hchain =>
          obtain ⟨rfl, rfl⟩ := List.cons.inj hheads
          rw [hblock, Option.bind_some] at hnext
          have hedges : b.edges [.next] = [(.next, _)] := Block.edges_cons_some hnext
          obtain ⟨os', hos', hcounts'⟩ := ih hchain hrest
          have hall := lists_chain hsteady hlookup hos (hedges ▸ lists_after hos')
          exact ⟨_, hall, hcounts.append (hcounts'.after _)⟩

variable (hr : s.registries.Coherent) (hclosed : s.Closed reached)
  (hchosen : ∀ role id b, reached role id → s.workspace.block? id = some b →
    b.Chosen s.catalog s.registries)
include hs hr hclosed hchosen

theorem ExpandsBlock.tallies (h : s.ExpandsBlock id phrase) (hid : reached role id) :
    s.Tallies role id phrase := by
  refine h.induct (P := fun role id phrase => s.Tallies role id phrase)
    (hs ▸ Catalog.madeOf_standard) hclosed ?_ hid
  rintro role id b d hd text hid hname hlookup hfills
  have hblock := (s.lookup_eq_ok.1 hlookup).1
  have hadmits : d.Admits s.registries b :=
    Block.Chosen.admits (hs ▸ hchosen role id b hid hblock) hd hname
  have hinline := (Standard.closes_designs hr d hd b hadmits).inline
  have hdefault := fun slot => (Standard.inline_defaultFor d hd slot).feed
  have hvisits := (d.template b s.registries).visits_rule
  have hnodup : (d.template b s.registries).links.Nodup := by
    rw [Standard.links_template d hd]
    exact Standard.nodup_links d hd
  have hedges := nodup_edges b .value hvisits hnodup
  have hcode := hfills.imp (fun _ _ _ _ _ h => h.2.2) fun _ _ _ _ _ h =>
    (h.imp fun _ _ h => ⟨h.1, h.2.2⟩).counts hs
  obtain ⟨ending, htail, hending⟩ := Standard.exists_ending_iff d hd
  obtain ⟨os, hos, hprints⟩ :=
    hcode.prints_template hdefault (htail b s.registries) hinline hedges
  have hfirst :=
    hcode.firstLine_template hdefault hinline hname (Standard.opening_designs hr d hd) hadmits
  have hdefines : decide (ending = .definition) = b.defines := by
    rw [Block.defines, ← hname, decide_eq_decide, hending]
  rw [← Template.code_result (d.template b s.registries) text] at hprints hfirst
  rw [hdefines] at hprints
  obtain ⟨hshut, hinside, hleast, hmost⟩ := hprints
  obtain ⟨htally, hinlined, htally', hinlined'⟩ := counts_cons os hblock
  cases role with
  | value =>
      refine ⟨hfirst.2, _, lists_cons hlookup hvisits hos, hshut, ?_, ?_, ?_⟩ <;> omega
  | chain =>
      refine ⟨os, hos.congr fun o => (occursInside_iff hlookup hvisits).symm, ?_, ?_⟩
      all_goals
        rw [endLines_eq_below, hfirst.1]
        omega

theorem ExpandsChain.counts (h : s.ExpandsChain head code) (hhead : reached .chain head) :
    s.CountsChain head code := by
  obtain ⟨blocks, hchain, hblocks, rfl⟩ := h
  have hreached := reached_of_chain hclosed hchain hhead <| List.forall_mem_map.2 fun e he =>
    let ⟨b, type, hlookup, _⟩ := hblocks e he
    ⟨(b, type), hlookup⟩
  refine ChainOf.counts hs ⟨blocks, hchain, fun e he => ⟨hblocks e he, ?_⟩, rfl⟩
  have hid := hreached e.1 (List.mem_map_of_mem he)
  exact (hblocks e he).tallies hs hr hclosed hchosen hid

end Expansion

/-- The lines of `end` of some chains are those of their blocks. -/
theorem counts_heads {s : Surroundings} {heads codes : List String}
    (h : List.Forall₂ s.CountsChain heads codes) (hnodup : heads.Nodup) :
    ∃ os, Lists os (s.OccursAt (heads.map (.next, ·))) ∧
      s.Counts os (codes.map endLines).sum := by
  induction h with
  | nil => exact ⟨[], lists_nil, counts_nil⟩
  | @cons head code heads codes hhead _ ih =>
      obtain ⟨os, hos, hcounts⟩ := hhead
      obtain ⟨os', hos', hcounts'⟩ := ih (List.nodup_cons.1 hnodup).2
      have hedges : ([(Link.next, head)] ++ heads.map (Link.next, ·)).Nodup :=
        List.Nodup.map (Prod.mk_right_injective Link.next) hnodup
      refine ⟨_, lists_append (lists_after hos) hos' hedges, ?_⟩
      rw [List.map_cons, List.sum_cons]
      exact (hcounts.after _).append hcounts'

end Surroundings

/-- A line of the declarations has a bracket in it. -/
theorem Declaration.isEndLine_line (d : Declaration) : isEndLine d.line.toList = false := by
  obtain ⟨front, last, hline⟩ : ∃ front last, d.line = front ++ "[" ++ last := by
    unfold line words
    cases d.names ++ ["]"] with
    | nil => exact ⟨d.head ++ " ", "", by simp⟩
    | cons name names =>
        exact ⟨d.head ++ " ", " " ++ " ".intercalate (name :: names),
          by simp [← String.toList_inj]⟩
  have hbracket : "[".toList.any isStriking = true := by decide
  have hstriking : d.line.toList.any isStriking = true := by
    rw [hline, String.toList_append, String.toList_append, List.any_append, List.any_append,
      hbracket, Bool.or_true, Bool.true_or]
  simpa using settled_of_striking hstriking []

theorem Registries.Coherent.sum_endLines_declarations {r : Registries} (hr : r.Coherent) :
    (r.declarations.map endLines).sum = 0 := by
  rw [← endLines_intercalate_blankLine, endLines_eq_countP,
    filledLines_declarations hr.legible_declared, List.countP_eq_zero]
  refine List.forall_mem_map.2 fun d _ => ?_
  rw [d.isEndLine_line]
  exact Bool.false_ne_true

/-- The lines of `end` of a program over the standard catalog. -/
theorem counts_generate {c : Catalog} (hc : c = .standard) {w : Workspace} {r : Registries}
    (hr : r.Coherent) {options : GenerateOptions}
    (hchosen : ∀ id b, w.block? id = some b → b.Chosen c r) {text : String}
    (h : generate c options w r = .ok text) :
    ∃ os, Lists os (Surroundings.Occurs ⟨c, w, r, options.indentWidth⟩) ∧
      Surroundings.Counts ⟨c, w, r, options.indentWidth⟩ os (endLines text) := by
  have hpure : c.Pure := hc ▸ Catalog.pure_standard
  have hclosed : Surroundings.Closed ⟨c, w, r, options.indentWidth⟩ fun _ _ => True :=
    fun _ _ _ _ _ _ => trivial
  obtain ⟨codes, hcodes, htext⟩ := expandsChain_of_generate hpure (.refl w) h
  have hcounts := hcodes.imp fun head code hcode =>
    hcode.counts hc hr hclosed (fun _ id b _ => hchosen id b) trivial
  obtain ⟨os, hos, hsum⟩ := Surroundings.counts_heads hcounts w.nodup_topLevelIds
  refine ⟨os, hos, ?_⟩
  have hdeclarations : ((if options.includeDeclarations then r.declarations else []).map
      endLines).sum = 0 := by
    split
    · exact hr.sum_endLines_declarations
    · rfl
  rw [htext, endLines_intercalate_blankLine, List.map_append, List.sum_append, hdeclarations,
    sum_endLines_filter, Nat.zero_add]
  exact hsum

/-- A program over registries that come from edits, with offered choices in the fields that stand in
it as they are. Its lines that consist of the word `end` are those of the definitions in chains,
those of the blocks in chains whose author has typed that name, and not more than one for each
definition in a value slot. -/
theorem endLines_of_generate (edits : List RegistryEdit) {w : Workspace}
    {options : GenerateOptions}
    (hchosen : ∀ id b, w.block? id = some b → b.Chosen .standard (RegistryEdit.run .empty edits))
    {text : String}
    (h : generate .standard options w (RegistryEdit.run .empty edits) = .ok text) :
    let s : Surroundings := ⟨.standard, w, RegistryEdit.run .empty edits, options.indentWidth⟩
    ∃ os, Lists os s.Occurs ∧ ∃ alone ≤ s.count .value Block.defines os,
      endLines text = s.count .chain Block.defines os + s.count .chain Block.isEnd os + alone := by
  intro s
  have hr := RegistryEdit.coherent_run Registries.coherent_empty edits
  obtain ⟨os, hos, hleast, hmost⟩ := counts_generate rfl hr hchosen h
  rw [Surroundings.tally] at hleast hmost
  rw [Surroundings.inlined] at hmost
  obtain ⟨alone, hlines⟩ := Nat.exists_eq_add_of_le hleast
  exact ⟨os, hos, alone, Nat.le_of_add_le_add_left (hlines.symm.trans_le hmost), hlines⟩

/-- A procedure that calls one whose name is a reserved word. -/
def closesEarly : Workspace :=
  Workspace.empty
    |>.insert "define" ((Block.new "procedure_define").withField "NAME" (.text "go")
      |>.withStatement "STACK" "call" |>.atTopLevel 0 0)
    |>.insert "call" ((Block.new "procedure_call").withField "NAME" (.text "end"))

theorem chosen_closesEarly (id : String) (b : Block) (hb : closesEarly.block? id = some b) :
    b.Chosen .standard (RegistryEdit.run .empty []) := by
  simp only [closesEarly, Workspace.insert, Workspace.block?, Dict.get?_insert] at hb
  split at hb
  · cases hb
    exact Block.chosen_of_unset (by decide)
  · split at hb
    · cases hb
      exact Block.chosen_of_unset (by decide)
    · cases hb

theorem endLines_of_generate_closesEarly :
    let s : Surroundings := ⟨.standard, closesEarly, RegistryEdit.run .empty [], 2⟩
    (∀ id b, closesEarly.block? id = some b →
        b.Chosen .standard (RegistryEdit.run .empty [])) ∧
      generate .standard .default closesEarly (RegistryEdit.run .empty []) =
        .ok "to go\n  end\nend" ∧
      ∃ os, Lists os s.Occurs ∧ ∃ alone ≤ s.count .value Block.defines os,
        2 = s.count .chain Block.defines os + s.count .chain Block.isEnd os + alone := by
  have htext : generate .standard .default closesEarly (RegistryEdit.run .empty []) =
      .ok "to go\n  end\nend" := by
    decide +kernel
  have hlines : endLines "to go\n  end\nend" = 2 := by decide +kernel
  have hall := endLines_of_generate [] chosen_closesEarly htext
  rw [hlines] at hall
  exact ⟨chosen_closesEarly, htext, hall⟩

/-- The call of such a procedure alone. -/
def callsEnd : Workspace :=
  Workspace.empty.insert "call"
    ((Block.new "procedure_call").withField "NAME" (.text "end") |>.atTopLevel 0 0)

theorem block_callsEnd {id : String} {b : Block} (hb : callsEnd.block? id = some b) :
    b.defines = false ∧ b.Chosen .standard (RegistryEdit.run .empty []) := by
  simp only [callsEnd, Workspace.insert, Workspace.block?, Dict.get?_insert] at hb
  split at hb
  · cases hb
    exact ⟨by decide +kernel, Block.chosen_of_unset (by decide)⟩
  · cases hb

/-- The lines of `end` of a program are not those of its definitions alone. -/
theorem not_endLines_eq_definitions : ¬∀ (edits : List RegistryEdit) (options : GenerateOptions)
    (w : Workspace) (text : String),
    let s : Surroundings := ⟨.standard, w, RegistryEdit.run .empty edits, options.indentWidth⟩
    (∀ id b, w.block? id = some b → b.Chosen .standard (RegistryEdit.run .empty edits)) →
      generate .standard options w (RegistryEdit.run .empty edits) = .ok text →
        ∀ os, Lists os s.Occurs →
          endLines text = s.count .chain Block.defines os + s.count .value Block.defines os := by
  intro hall
  have hr := RegistryEdit.coherent_run Registries.coherent_empty []
  have htext : generate .standard .default callsEnd (RegistryEdit.run .empty []) = .ok "end" := by
    decide +kernel
  have hlines : endLines "end" = 1 := by decide +kernel
  obtain ⟨os, hos, -⟩ := counts_generate rfl hr (fun _ _ hb => (block_callsEnd hb).2) htext
  have hsum := hall [] .default callsEnd "end" (fun _ _ hb => (block_callsEnd hb).2) htext os hos
  have hnone : ∀ role, Surroundings.count ⟨.standard, callsEnd, RegistryEdit.run .empty [], 2⟩
      role Block.defines os = 0 := by
    refine fun role => List.countP_eq_zero.2 fun o _ => ?_
    cases hb : callsEnd.block? o.id with
    | none => simp
    | some b => simp [(block_callsEnd hb).1]
  rw [hlines] at hsum
  exact absurd (hsum.trans (congrArg₂ (· + ·) (hnone .chain) (hnone .value))) Nat.one_ne_zero

end AgentBlocks
