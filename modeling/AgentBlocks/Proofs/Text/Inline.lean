import AgentBlocks.Catalog.Precedence
import AgentBlocks.Proofs.Expression.Tokens
import AgentBlocks.Proofs.Text.Brackets

/-!
Tidy code on a single line. Words and literals are such code, and it stays so when it is joined or
put into parentheses.
-/
namespace AgentBlocks

open Text

namespace Text

theorem Reading.step_of_isWordChar {c : Char} (h : Scan.isWordChar c = true) (awaited : List Char)
    (filled : Bool) : Reading.step ⟨⟨awaited, .outside⟩, filled⟩ c =
      some ⟨⟨awaited, .outside⟩, true⟩ := by
  have hc : isBlank c = false ∧ Scan.isBracket c = false ∧ c ≠ '"' := by
    simpa [Scan.isWordChar, and_assoc] using h
  obtain ⟨hblank, hbracket, hquote⟩ := hc
  have hfeed : c ≠ '\n' := by
    rintro rfl
    exact absurd hblank (by decide)
  have hreturn : c ≠ '\r' := by
    rintro rfl
    exact absurd hblank (by decide)
  simp only [Scan.isBracket, Bool.or_eq_false_iff, beq_eq_false_iff_ne] at hbracket
  simp [step, Nesting.step, Nesting.bracket, hfeed, hreturn, hquote, hbracket, hblank]

theorem Reading.run_literal (awaited cs : List Char) :
    Reading.run ⟨⟨awaited, .inside⟩, true⟩ (cs.flatMap literalChar) =
      some ⟨⟨awaited, .inside⟩, true⟩ := by
  induction cs with
  | nil => rfl
  | cons c cs ih =>
      have hchar : Reading.run ⟨⟨awaited, .inside⟩, true⟩ (literalChar c) =
          some ⟨⟨awaited, .inside⟩, true⟩ := by
        unfold literalChar
        split
        · rfl
        · rfl
        · rfl
        · rename_i hslash hquote hfeed
          have hc : c ≠ '\\' ∧ c ≠ '"' ∧ c ≠ '\n' := ⟨hslash, hquote, hfeed⟩
          simp [run, step, Nesting.step, hc]
      rw [List.flatMap_cons, run_append, hchar, Option.bind_some, ih]

end Text

/-- A word or a literal is tidy. -/
theorem Lexeme.tidy {s : String} (h : Lexeme s) : Tidy s := by
  cases h with
  | word hne hs =>
      have hrun : ∀ {cs : List Char} {filled}, cs.all Scan.isWordChar = true →
          Reading.run ⟨.start, filled⟩ cs = some ⟨.start, filled || !cs.isEmpty⟩ := by
        intro cs
        induction cs with
        | nil => simp [Reading.run]
        | cons c cs ih =>
            intro filled hcs
            obtain ⟨hc, hcs⟩ := Bool.and_eq_true_iff.1 hcs
            have hstep := Reading.step_of_isWordChar hc [] filled
            rw [Reading.run_cons, show Reading.step ⟨.start, filled⟩ c = _ from hstep,
              Option.bind_some, show Reading.run ⟨⟨[], .outside⟩, true⟩ cs = _ from ih hcs]
            simp
      rw [Tidy, show Reading.start.run s.toList = _ from hrun hs]
      simpa using hne
  | literal s =>
      rw [Tidy, Text.literal, String.toList_ofList, List.cons_append, Reading.run_cons]
      have hopen : Reading.start.step '"' = some ⟨⟨[], .inside⟩, true⟩ := rfl
      rw [hopen, Option.bind_some, Reading.run_append, Reading.run_literal]
      rfl

namespace Text

variable {a b : String}

theorem Tidy.append (ha : Tidy a) (hb : Tidy b) : Tidy (a ++ b) := by
  rw [Tidy, String.toList_append, Reading.run_append, ha, Option.bind_some]
  exact hb.run [] true

theorem Tidy.append_blank (ha : Tidy a) : Tidy (a ++ " ") := by
  rw [Tidy, String.toList_append, Reading.run_append, ha]
  rfl

theorem Tidy.enclose (ha : Tidy a) (bound : Bound) (p : Precedence) :
    Tidy (bound.enclose a p) := by
  unfold Bound.enclose
  split
  · rw [Tidy, String.toList_append, String.toList_append, Reading.run_append, Reading.run_append]
    have hopen : Reading.start.run "(".toList = some ⟨⟨[')'], .outside⟩, true⟩ := rfl
    rw [hopen, Option.bind_some, ha.run, Option.bind_some]
    rfl
  · exact ha

theorem Tidy.getLast?_ne (h : Tidy a) : a.toList.getLast? ≠ some '[' := by
  intro hlast
  obtain ⟨front, hfront⟩ := List.getLast?_eq_some_iff.1 hlast
  rw [Tidy, hfront, Reading.run_append] at h
  obtain ⟨⟨⟨awaited, quoting⟩, filled⟩, -, hstep⟩ := Option.bind_eq_some_iff.1 h
  cases quoting <;> cases hstep

theorem not_suffix_of_ne {cs : List Char} {c : Char} (hc : c ≠ ']') :
    ¬"[]".toList <:+ cs ++ [c] := by
  intro hsuffix
  have hsplit : ['['] ++ [']'] <:+ cs ++ [c] := hsuffix
  rw [List.suffix_append_inj_of_length_eq (by simp)] at hsplit
  exact hc (List.singleton_inj.1 hsplit.2).symm

/-- Tidy code on a single line that does not end in an empty pair of brackets. -/
structure Inline (code : String) : Prop where
  tidy : Tidy code
  feed : '\n' ∉ code.toList
  bare : ¬"[]".toList <:+ code.toList

instance (code : String) : Decidable (Inline code) :=
  decidable_of_iff (Tidy code ∧ '\n' ∉ code.toList ∧ ¬"[]".toList <:+ code.toList)
    ⟨fun ⟨tidy, feed, bare⟩ => ⟨tidy, feed, bare⟩, fun h => ⟨h.tidy, h.feed, h.bare⟩⟩

/-- The end is no empty pair of brackets, whatever stands before. -/
theorem Inline.not_suffix (h : Inline a) (before : List Char) :
    ¬"[]".toList <:+ before ++ a.toList := by
  intro hsuffix
  have ha : a.toList <:+ before ++ a.toList := List.suffix_append _ _
  rcases Nat.le_total "[]".toList.length a.toList.length with hlong | hshort
  · exact h.bare (List.suffix_of_suffix_length_le hsuffix ha hlong)
  · -- code that is not longer is the pair itself or not tidy
    have hshort : a.toList <:+ "[]".toList := List.suffix_of_suffix_length_le ha hsuffix hshort
    have hcases : a.toList = "[]".toList ∨ a.toList = "]".toList ∨ a.toList = "".toList := by
      simpa [List.suffix_cons_iff] using hshort
    have hnone : ¬Inline "[]" ∧ ¬Inline "]" ∧ ¬Inline "" := by decide
    rcases hcases with ha | ha | ha <;> rw [String.toList_inj] at ha <;> subst ha
    · exact hnone.1 h
    · exact hnone.2.1 h
    · exact hnone.2.2 h

theorem Inline.append (ha : Inline a) (hb : Inline b) : Inline (a ++ b) where
  tidy := ha.tidy.append hb.tidy
  feed := by simp [ha.feed, hb.feed]
  bare := by
    rw [String.toList_append]
    exact hb.not_suffix a.toList

theorem Inline.append_blank (ha : Inline a) : Inline (a ++ " ") where
  tidy := ha.tidy.append_blank
  feed := by simp [ha.feed]
  bare := by
    rw [String.toList_append]
    exact not_suffix_of_ne (by decide)

theorem Inline.enclose (ha : Inline a) (bound : Bound) (p : Precedence) :
    Inline (bound.enclose a p) := by
  refine ⟨ha.tidy.enclose bound p, ?_, ?_⟩
  · unfold Bound.enclose
    split
    · simp [ha.feed]
    · exact ha.feed
  · unfold Bound.enclose
    split
    · rw [String.toList_append]
      exact not_suffix_of_ne (by decide)
    · exact ha.bare

end Text

/-- Words and literals stand on a single line. -/
theorem Lexeme.inline {s : String} (h : Lexeme s) : Inline s := by
  refine ⟨h.tidy, ?_, ?_⟩
  · cases h with
    | word _ hs => exact fun hfeed => absurd (List.all_eq_true.1 hs _ hfeed) (by decide)
    | literal s =>
        have hchar : ∀ c, '\n' ∉ literalChar c := by
          intro c
          unfold literalChar
          split
          · decide
          · decide
          · decide
          · rename_i hfeed
            exact fun h => hfeed (List.mem_singleton.1 h).symm
        simp [Text.literal, hchar]
  · cases h with
    | word _ hs =>
        intro hsuffix
        have hclosing : ']' ∈ s.toList := hsuffix.subset (by decide)
        exact absurd (List.all_eq_true.1 hs _ hclosing) (by decide)
    | literal s =>
        have hchars : (Text.literal s).toList = '"' :: s.toList.flatMap literalChar ++ ['"'] :=
          String.toList_ofList
        rw [hchars]
        exact not_suffix_of_ne (by decide)

end AgentBlocks
