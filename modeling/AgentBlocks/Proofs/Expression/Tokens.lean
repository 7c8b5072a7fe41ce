import AgentBlocks.Text.Blank
import AgentBlocks.Text.Literal

/-!
Tokens of program text: brackets and parentheses, text literals, and the words between them. A
text is scanned from left to right.
-/
namespace AgentBlocks

/-- What a scan is in the middle of, with what it has read of it. -/
inductive Scan where
  | gap
  | word (read : List Char)
  | literal (read : List Char)
  | escape (read : List Char)
deriving DecidableEq

namespace Scan

def isBracket (c : Char) : Bool := c == '(' || c == ')' || c == '[' || c == ']'

/-- A character of a word: no blank, bracket or quote. -/
def isWordChar (c : Char) : Bool := !(Text.isBlank c || isBracket c || c == '"')

/-- What a character is or begins that stands outside of words and literals. -/
def start (c : Char) : List String × Scan :=
  if Text.isBlank c then ([], .gap)
  else if isBracket c then ([String.ofList [c]], .gap)
  else if c = '"' then ([], .literal [c])
  else ([], .word [c])

/-- The tokens that a character completes, and what the scan is in afterwards. -/
def step : Scan → Char → List String × Scan
  | .gap, c => start c
  | .word read, c =>
    if isWordChar c then ([], .word (read ++ [c]))
    else (String.ofList read :: (start c).1, (start c).2)
  | .literal read, c =>
    if c = '\\' then ([], .escape (read ++ [c]))
    else if c = '"' then ([String.ofList (read ++ [c])], .gap)
    else ([], .literal (read ++ [c]))
  | .escape read, c => ([], .literal (read ++ [c]))

/-- The tokens of a text of which a part may have been read. -/
def tokens : Scan → List Char → List String
  | .gap, [] => []
  | .word read, [] | .literal read, [] | .escape read, [] => [String.ofList read]
  | scan, c :: cs => (scan.step c).1 ++ (scan.step c).2.tokens cs

theorem tokens_cons (scan : Scan) (c : Char) (cs : List Char) :
    scan.tokens (c :: cs) = (scan.step c).1 ++ (scan.step c).2.tokens cs := by
  cases scan <;> rfl

/-- No word goes on here. -/
def AtEdge (rest : List Char) : Prop := ∀ c ∈ rest.head?, isWordChar c = false

theorem atEdge_nil : AtEdge [] := nofun

theorem atEdge_cons {c : Char} {rest : List Char} (h : isWordChar c = false) :
    AtEdge (c :: rest) := by
  intro c' hc'
  cases hc'
  exact h

theorem tokens_word {read cs rest : List Char} (hcs : ∀ c ∈ cs, isWordChar c = true)
    (hrest : AtEdge rest) :
    tokens (.word read) (cs ++ rest) = String.ofList (read ++ cs) :: tokens .gap rest := by
  induction cs generalizing read with
  | nil =>
      rw [List.nil_append, List.append_nil]
      cases rest with
      | nil => rfl
      | cons c rest =>
          have hc : isWordChar c = false := hrest c rfl
          rw [tokens_cons, tokens_cons, step, step, if_neg (by simp [hc])]
          rfl
  | cons c cs ih =>
      have hc : isWordChar c = true := hcs c List.mem_cons_self
      rw [List.cons_append, tokens_cons, step, if_pos hc]
      rw [List.nil_append, ih fun c hc => hcs c (List.mem_cons_of_mem _ hc)]
      rw [List.append_assoc, List.singleton_append]

theorem tokens_literal (read cs rest : List Char) :
    tokens (.literal read) (cs.flatMap Text.literalChar ++ '"' :: rest) =
      String.ofList (read ++ cs.flatMap Text.literalChar ++ ['"']) :: tokens .gap rest := by
  induction cs generalizing read with
  | nil => simp [tokens_cons, step]
  | cons c cs ih =>
      -- an escaped character is read in two steps, any other one in a single step
      have hchar : ∀ rest, tokens (.literal read) (Text.literalChar c ++ rest) =
          tokens (.literal (read ++ Text.literalChar c)) rest := by
        intro rest
        unfold Text.literalChar
        split <;> simp_all [tokens_cons, step]
      rw [List.flatMap_cons, List.append_assoc, hchar, ih]
      simp

end Scan

def Text.tokens (s : String) : List String := Scan.gap.tokens s.toList

/-- A text that is one token, and no bracket. -/
inductive Lexeme : String → Prop
  | word {s : String} : s ≠ "" → s.toList.all Scan.isWordChar = true → Lexeme s
  | literal (s : String) : Lexeme (Text.literal s)

namespace Scan

theorem tokens_lexeme {s : String} (h : Lexeme s) {rest : List Char} (hrest : AtEdge rest) :
    tokens .gap (s.toList ++ rest) = s :: tokens .gap rest := by
  cases h with
  | word hne hs =>
      cases hchars : s.toList with
      | nil => exact absurd (String.toList_eq_nil_iff.1 hchars) hne
      | cons c cs =>
          rw [hchars, List.all_eq_true] at hs
          have hc : isWordChar c = true := hs c List.mem_cons_self
          have hstart : start c = ([], .word [c]) := by
            simp only [isWordChar, Bool.not_eq_true', Bool.or_eq_false_iff, beq_eq_false_iff_ne,
              ne_eq] at hc
            simp [start, hc]
          rw [List.cons_append, tokens_cons, step, hstart, List.nil_append]
          rw [tokens_word (fun c hc => hs c (List.mem_cons_of_mem _ hc)) hrest]
          rw [List.singleton_append, ← hchars, String.ofList_toList]
  | literal s =>
      have hstart : start '"' = ([], .literal ['"']) := by decide
      rw [Text.literal, String.toList_ofList, List.append_assoc, List.cons_append, tokens_cons]
      rw [step, hstart, List.nil_append, List.singleton_append, tokens_literal]
      rfl

theorem tokens_blank (rest : List Char) : tokens .gap (' ' :: rest) = tokens .gap rest := by
  rw [tokens_cons]
  rfl

theorem tokens_bracket {c : Char} (h : isBracket c = true) (rest : List Char) :
    tokens .gap (c :: rest) = String.ofList [c] :: tokens .gap rest := by
  have hblank : Text.isBlank c = false := by
    simp only [isBracket, Bool.or_eq_true, beq_iff_eq] at h
    rcases h with ((rfl | rfl) | rfl) | rfl <;> decide
  rw [tokens_cons, step, start, if_neg (by simp [hblank]), if_pos h]
  rfl

end Scan

end AgentBlocks
