import AgentBlocks.Proofs.Text.Lines
import AgentBlocks.Text.Literal
import Mathlib.Data.List.Infix

/-!
Literals read back. A literal that stands in a text stands unaltered in the lines of the text and in
the indented text: it has no line feed, and no carriage return at its end.
-/
namespace AgentBlocks.Text

/-- Reads a literal from behind its opening quote: what it says, and what follows the first quote
that is not escaped. A literal does not go on behind a line feed. -/
def readInside? : List Char → Option (List Char × List Char)
  | [] => none
  | '"' :: rest => some ([], rest)
  | '\n' :: _ => none
  | '\\' :: '\\' :: rest => (readInside? rest).map fun read => ('\\' :: read.1, read.2)
  | '\\' :: '"' :: rest => (readInside? rest).map fun read => ('"' :: read.1, read.2)
  | '\\' :: 'n' :: rest => (readInside? rest).map fun read => ('\n' :: read.1, read.2)
  | c :: rest => (readInside? rest).map fun read => (c :: read.1, read.2)

/-- Reads a literal at the beginning of a text: what it says, and what follows it. -/
def readLiteral? : List Char → Option (String × List Char)
  | '"' :: rest => (readInside? rest).map fun read => (String.ofList read.1, read.2)
  | _ => none

theorem readInside?_literalChar (c : Char) (rest : List Char) :
    readInside? (literalChar c ++ rest) =
      (readInside? rest).map fun read => (c :: read.1, read.2) := by
  unfold literalChar
  split
  case h_1 => rfl
  case h_2 => rfl
  case h_3 => rfl
  case h_4 hslash hquote hfeed =>
    rw [List.singleton_append, readInside?]
    · exact hquote
    · exact hfeed
    all_goals
      rintro _ rfl
      exact absurd rfl hslash

theorem readInside?_flatMap (cs rest : List Char) :
    readInside? (cs.flatMap literalChar ++ '"' :: rest) = some (cs, rest) := by
  induction cs with
  | nil => rfl
  | cons c cs ih =>
      rw [List.flatMap_cons, List.append_assoc, readInside?_literalChar, ih]
      rfl

theorem readLiteral?_literal (t : String) (rest : List Char) :
    readLiteral? ((literal t).toList ++ rest) = some (t, rest) := by
  have hchars : (literal t).toList ++ rest =
      '"' :: (t.toList.flatMap literalChar ++ '"' :: rest) := by
    simp [literal]
  rw [hchars, readLiteral?, readInside?_flatMap, Option.map_some, String.ofList_toList]

theorem literal_injective : Function.Injective literal := by
  intro t t' h
  have hread := readLiteral?_literal t []
  rw [h, readLiteral?_literal] at hread
  cases hread
  rfl

/-- Every occurrence of a character gives way to other characters. -/
def replaced (c : Char) (others : List Char) (cs : List Char) : List Char :=
  cs.flatMap fun d => if d = c then others else [d]

/-- What the escapes stand for may be replaced kind by kind: backslashes go first, since the escapes
of the others bring backslashes in. -/
theorem flatMap_literalChar (cs : List Char) : cs.flatMap literalChar =
    replaced '\n' ['\\', 'n'] (replaced '"' ['\\', '"'] (replaced '\\' ['\\', '\\'] cs)) := by
  rw [replaced, replaced, replaced, List.flatMap_assoc, List.flatMap_assoc]
  refine List.flatMap_congr fun c _ => ?_
  unfold literalChar
  split
  case h_4 hslash hquote hfeed =>
    rw [if_neg hslash, List.flatMap_singleton, if_neg hquote, List.flatMap_singleton, if_neg hfeed]
  all_goals decide

theorem literal_eq_replaced (t : String) : literal t = String.ofList ('"' ::
    replaced '\n' ['\\', 'n'] (replaced '"' ['\\', '"'] (replaced '\\' ['\\', '\\'] t.toList)) ++
      ['"']) := by
  rw [literal, flatMap_literalChar]

/-- Characters of one line that stay together when the text is cut into lines. -/
structure Unbroken (piece : List Char) : Prop where
  filled : piece ≠ []
  feed : '\n' ∉ piece
  ending : piece.getLast? ≠ some '\r'

theorem unbroken_literal (t : String) : Unbroken (literal t).toList where
  filled := by simp [literal]
  feed := by
    have hchar : ∀ c, '\n' ∉ literalChar c := by
      intro c
      unfold literalChar
      split
      case h_4 hfeed => simpa using Ne.symm hfeed
      all_goals decide
    simp [literal, hchar]
  ending := by
    have hlast : (literal t).toList = ('"' :: t.toList.flatMap literalChar) ++ ['"'] := by
      simp [literal]
    rw [hlast, List.getLast?_concat]
    decide

variable {piece line rest cs : List Char}

theorem infix_or_infix {c : Char} (hc : c ∉ piece) (h : piece <:+: line ++ c :: rest) :
    piece <:+: line ∨ piece <:+: rest := by
  obtain ⟨before, after, heq⟩ := h
  rw [List.append_assoc] at heq
  rcases List.append_eq_append_iff.1 heq with ⟨back, rfl, hback⟩ | ⟨front, rfl, hfront⟩
  · rcases List.append_eq_append_iff.1 hback with ⟨extra, rfl, -⟩ | ⟨more, rfl, hmore⟩
    · exact .inl ⟨before, extra, List.append_assoc ..⟩
    · cases more with
      | nil => exact .inl ⟨before, [], by simp⟩
      | cons d more =>
          cases hmore
          exact absurd (List.mem_append_right back List.mem_cons_self) hc
  · cases front with
    | nil =>
        cases piece with
        | nil => exact .inl (List.nil_infix)
        | cons d piece =>
            cases hfront
            exact absurd List.mem_cons_self hc
    | cons d front =>
        cases hfront
        exact .inr ⟨front, after, List.append_assoc ..⟩

theorem Unbroken.infix_chomp (h : Unbroken piece) (hin : piece <:+: line) :
    piece <:+: chomp line := by
  obtain ⟨before, after, rfl⟩ := hin
  rcases List.eq_nil_or_concat' after with rfl | ⟨after, d, rfl⟩
  · -- the line ends where the piece does
    obtain ⟨front, c, rfl⟩ := (List.eq_nil_or_concat' piece).resolve_left h.filled
    have hending : c ≠ '\r' := by simpa using h.ending
    rw [List.append_nil, ← List.append_assoc, chomp_concat, if_neg hending, List.append_assoc]
    exact (List.suffix_append _ _).isInfix
  · rw [← List.append_assoc, chomp_concat]
    split
    · exact ⟨before, after, rfl⟩
    · exact ⟨before, after ++ [d], by simp⟩

theorem Unbroken.exists_line (h : Unbroken piece) (hin : piece <:+: cs) :
    ∃ line ∈ lines cs, piece <:+: line := by
  induction cs using lines_induction with
  | last line hline =>
      have hfilled : line ≠ [] := by
        rintro rfl
        exact h.filled (List.infix_nil.1 hin)
      rw [lines_of_not_mem hline, if_neg (by simpa using hfilled)]
      exact ⟨line, List.mem_singleton_self line, hin⟩
  | feed line rest hline ih =>
      rw [lines_append_feed hline]
      rcases infix_or_infix h.feed hin with hin | hin
      · exact ⟨_, List.mem_cons_self, h.infix_chomp hin⟩
      · obtain ⟨line', hmem, hin'⟩ := ih hin
        exact ⟨line', List.mem_cons_of_mem _ hmem, hin'⟩

theorem infix_append_left {code : String} (h : piece <:+: code.toList) (after : String) :
    piece <:+: (code ++ after).toList := by
  rw [String.toList_append]
  exact h.trans (List.prefix_append _ _).isInfix

theorem infix_append_right {code : String} (h : piece <:+: code.toList) (before : String) :
    piece <:+: (before ++ code).toList := by
  rw [String.toList_append]
  exact h.trans (List.suffix_append _ _).isInfix

theorem infix_intercalate (separator : String) {code : String} {codes : List String}
    (h : code ∈ codes) :
    code.toList <:+: (separator.intercalate codes).toList := by
  induction codes with
  | nil => cases h
  | cons first rest ih =>
      cases rest with
      | nil =>
          obtain rfl := List.mem_singleton.1 h
          rw [String.intercalate_singleton]
      | cons second rest =>
          rw [String.intercalate_cons_cons]
          rcases List.mem_cons.1 h with rfl | h
          · exact infix_append_left (infix_append_left List.infix_rfl _) _
          · exact infix_append_right (ih h) _

theorem Unbroken.infix_indent (h : Unbroken piece) {text : String} (hin : piece <:+: text.toList)
    (width : Nat) : piece <:+: (indent width text).toList := by
  obtain ⟨line, hmem, hline⟩ := h.exists_line hin
  have hindented : piece <:+: indentLine width line := by
    unfold indentLine
    split
    · rename_i hempty
      rwa [List.isEmpty_iff.1 hempty] at hline
    · exact hline.trans (List.suffix_append _ _).isInfix
  have hcode := infix_intercalate "\n"
    (List.mem_map_of_mem (f := fun line => String.ofList (indentLine width line)) hmem)
  rw [String.toList_ofList] at hcode
  exact hindented.trans hcode

end AgentBlocks.Text
