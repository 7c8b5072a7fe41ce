import AgentBlocks.Text.Lines
import Mathlib.Data.List.Basic

/-!
Lines of a text, one after the other.
-/
namespace AgentBlocks.Text

/-- A line without the carriage return that stands before its line feed. -/
def chomp (line : List Char) : List Char :=
  if line.getLast? = some '\r' then line.dropLast else line

theorem chomp_concat (line : List Char) (c : Char) :
    chomp (line ++ [c]) = if c = '\r' then line else line ++ [c] := by
  simp [chomp]

theorem chomp_subset (line : List Char) : chomp line ⊆ line := by
  unfold chomp
  split
  · exact List.dropLast_subset line
  · exact List.Subset.refl line

section Split

variable {separator : Char} {piece cs : List Char}

/-- The pieces of a text that is split have characters of the text, the separator apart. -/
theorem mem_splitOn (h : piece ∈ cs.splitOn separator) :
    separator ∉ piece ∧ ∀ c ∈ piece, c ∈ cs := by
  induction cs generalizing piece with
  | nil =>
      rw [List.splitOn_nil, List.mem_singleton] at h
      simp [h]
  | cons d cs ih =>
      obtain ⟨first, rest, hsplit⟩ := List.exists_cons_of_ne_nil (List.splitOn_ne_nil separator cs)
      rw [List.splitOn_cons_eq_if_modifyHead, hsplit] at h
      rw [hsplit] at ih
      have hrest : ∀ {piece}, piece ∈ first :: rest →
          separator ∉ piece ∧ ∀ c ∈ piece, c ∈ d :: cs := fun h =>
        (ih h).imp_right fun hmem c hc => List.mem_cons_of_mem d (hmem c hc)
      split at h
      · rcases List.mem_cons.1 h with rfl | h
        · exact ⟨List.not_mem_nil, nofun⟩
        · exact hrest h
      · rename_i hd
        rcases List.mem_cons.1 h with rfl | h
        · obtain ⟨hfirst, hchars⟩ := hrest List.mem_cons_self
          rw [List.mem_cons, not_or]
          exact ⟨⟨fun hd' => hd (beq_iff_eq.2 hd'.symm), hfirst⟩,
            List.forall_mem_cons.2 ⟨List.mem_cons_self, hchars⟩⟩
        · exact hrest (List.mem_cons_of_mem first h)

end Split

section Line

variable {line : List Char} (hline : '\n' ∉ line)
include hline

theorem foldr_lineStep (first : List Char) (rest : List (List Char)) :
    line.foldr lineStep (first :: rest, false) = ((line ++ first) :: rest, false) := by
  induction line with
  | nil => rfl
  | cons c line ih =>
      obtain ⟨hc, hline⟩ := not_or.1 (mt List.mem_cons.2 hline)
      rw [List.foldr_cons, ih hline]
      simp [lineStep, Ne.symm hc]

theorem lines_of_not_mem : lines line = if line.isEmpty then [] else [line] := by
  rcases List.eq_nil_or_concat' line with rfl | ⟨front, c, rfl⟩
  · rfl
  · obtain ⟨hfront, hc⟩ := not_or.1 (mt List.mem_append.2 hline)
    have hstep : lineStep c ([], false) = ([[c]], false) := by
      simp [lineStep, (List.ne_of_not_mem_cons hc).symm]
    rw [lines, List.foldr_append, List.foldr_cons, List.foldr_nil, hstep, foldr_lineStep hfront]
    simp

theorem lines_append_feed (rest : List Char) :
    lines (line ++ '\n' :: rest) = chomp line :: lines rest := by
  have hfeed : ∀ found, lineStep '\n' found = ([] :: found.1, true) := fun _ => rfl
  rw [lines, List.foldr_append, List.foldr_cons, hfeed]
  rcases List.eq_nil_or_concat' line with rfl | ⟨front, c, rfl⟩
  · rfl
  · obtain ⟨hfront, hc⟩ := not_or.1 (mt List.mem_append.2 hline)
    have hc' : ¬c = '\n' := (List.ne_of_not_mem_cons hc).symm
    rw [List.foldr_append, List.foldr_cons, List.foldr_nil, chomp_concat]
    split
    · rename_i hreturn
      subst hreturn
      have hstep : lineStep '\r' ([] :: lines rest, true) = ([] :: lines rest, false) := rfl
      have hfront := congrArg Prod.fst (hstep ▸ foldr_lineStep hfront [] (lines rest))
      rwa [List.append_nil] at hfront
    · rename_i hreturn
      have hstep : lineStep c ([] :: lines rest, true) = ([c] :: lines rest, false) := by
        simp [lineStep, hc', hreturn]
      exact congrArg Prod.fst (hstep ▸ foldr_lineStep hfront [c] (lines rest))

end Line

/-- Induction over the lines of a text: a text without a line feed, or a line before a text. -/
@[elab_as_elim]
theorem lines_induction {P : List Char → Prop} (last : ∀ line, '\n' ∉ line → P line)
    (feed : ∀ line rest, '\n' ∉ line → P rest → P (line ++ '\n' :: rest)) (cs : List Char) :
    P cs := by
  by_cases hfeed : '\n' ∈ cs
  · obtain ⟨line, rest, hsplit, hline⟩ := List.eq_append_cons_of_mem hfeed
    have hshorter : rest.length < cs.length := by
      rw [hsplit, List.length_append, List.length_cons]
      omega
    exact hsplit ▸ feed line rest hline (lines_induction last feed rest)
  · exact last cs hfeed
termination_by cs.length

/-- Each line feed ends a line, and so does the end of a text when something stands before it. -/
theorem length_lines (cs : List Char) :
    (lines cs).length = cs.count '\n' + (cs.getLast?.any (· != '\n')).toNat := by
  induction cs using lines_induction with
  | last line hline =>
      rw [lines_of_not_mem hline, List.count_eq_zero_of_not_mem hline]
      cases hlast : line.getLast? with
      | none =>
          rw [List.getLast?_eq_none_iff.1 hlast]
          rfl
      | some c =>
          have hc := List.mem_of_getLast? hlast
          have hne : (c != '\n') = true := bne_iff_ne.2 fun h => hline (h ▸ hc)
          simp [List.ne_nil_of_mem hc, hne]
  | feed line rest hline ih =>
      have hlast : (line ++ '\n' :: rest).getLast?.any (· != '\n') =
          rest.getLast?.any (· != '\n') := by
        cases hrest : rest.getLast? <;> simp [List.getLast?_append, List.getLast?_cons, hrest]
      rw [lines_append_feed hline, List.length_cons, ih, List.count_append, List.count_cons_self,
        List.count_eq_zero_of_not_mem hline, hlast]
      omega

theorem lines_eq_nil_iff {cs : List Char} : lines cs = [] ↔ cs = [] := by
  refine ⟨fun h => ?_, fun h => h ▸ rfl⟩
  induction cs using lines_induction with
  | last line hline => simpa [lines_of_not_mem hline] using h
  | feed line rest hline ih =>
      rw [lines_append_feed hline] at h
      cases h

end AgentBlocks.Text
