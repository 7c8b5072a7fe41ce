import AgentBlocks.Proofs.Catalog.Endings
import AgentBlocks.Proofs.Text.Brackets

/-!
Outlines of programs, read from their text. A row of a program is a statement of its own, opens or
closes a body, or stands between two bodies. Its beginning and the brackets at its end tell which,
whatever the indentation is.
-/
namespace AgentBlocks

open Text

/-- A statement by its header, with the statements in its bodies, one body after the other. -/
inductive Outline where
  | node (header : String) (bodies : List (List Outline))

namespace Outline

/-- The lines of a text without the blanks before them. -/
def rows (code : String) : List (List Char) :=
  (code.toList.splitOn '\n').map (·.dropWhile (· == ' '))

/-- What a row says. The empty bodies of a statement stand on the row of the body next to them, or
on that of the statement. -/
inductive Entry where
  | statement (header : List Char) (empty : Nat)
  | opening (header : List Char) (empty : Nat)
  | closing (empty : Nat)
  | divider
deriving DecidableEq

/-- The entry of the first row of a statement with the ending. The header is the row with all bodies
empty. -/
def ofEnding (row : List Char) : Ending → Entry
  | .plain => .statement row 0
  | .loop => if row.getLast? = some '[' then .opening (row ++ "]".toList) 0 else .statement row 1
  | .branches =>
    if "[] [".toList <:+ row then .opening (row ++ "]".toList) 1
    else if row.getLast? = some '[' then .opening (row ++ "] []".toList) 0
    else .statement row 2
  | .optional =>
    if row.getLast? = some '[' then .opening row.dropLast.dropLast 0 else .statement row 1
  | .definition => .opening (row ++ "\nend".toList) 0

/-- The beginnings of statements of more than one word. -/
def beginnings : List (String × Ending) :=
  [("if ", .loop), ("repeat ", .loop), ("while ", .loop), ("ask ", .loop), ("ifelse ", .branches),
    ("create-", .optional), ("sprout ", .optional), ("sprout-", .optional), ("hatch ", .optional),
    ("hatch-", .optional), ("to ", .definition), ("to-report ", .definition), ("set ", .plain),
    ("let ", .plain), ("report ", .plain), ("show ", .plain), ("print ", .plain), ("fd ", .plain),
    ("bk ", .plain), ("rt ", .plain), ("lt ", .plain), ("setxy ", .plain)]

/-- The ending that the first row of a statement announces. -/
def ending? (row : List Char) : Option Ending :=
  if ' ' ∈ row then (beginnings.find? (·.1.toList.isPrefixOf row)).map (·.2) else some .plain

/-- The rows after a body. -/
def closings : List (String × Entry) :=
  [("]", .closing 0), ("] []", .closing 1), ("] [", .divider), ("end", .closing 0)]

def ofRow? (row : List Char) : Option Entry :=
  match closings.find? (·.1.toList == row) with
  | some (_, entry) => some entry
  | none => (ending? row).map (ofEnding row)

theorem ofRow?_bracket : ofRow? "]".toList = some (.closing 0) := rfl

theorem ofRow?_end : ofRow? "end".toList = some (.closing 0) := rfl

/-- A statement of which a body is being read: the statements before it, its header, and the bodies
that have been read. -/
structure Frame where
  before : List Outline
  header : List Char
  bodies : List (List Outline)

/-- What has been read: the statements around, innermost first, and those of the body that is being
read. -/
structure State where
  frames : List Frame
  current : List Outline

namespace State

def start : State := ⟨[], []⟩

def step (state : State) : Entry → Option State
  | .statement header empty =>
    some ⟨state.frames,
      state.current ++ [.node (String.ofList header) (List.replicate empty [])]⟩
  | .opening header empty =>
    some ⟨⟨state.current, header, List.replicate empty []⟩ :: state.frames, []⟩
  | .closing empty =>
    match state.frames with
    | [] => none
    | ⟨before, header, bodies⟩ :: frames =>
      some ⟨frames, before ++ [.node (String.ofList header)
        (bodies ++ state.current :: List.replicate empty [])]⟩
  | .divider =>
    match state.frames with
    | [] => none
    | ⟨before, header, bodies⟩ :: frames =>
      some ⟨⟨before, header, bodies ++ [state.current]⟩ :: frames, []⟩

def read (state : State) (row : List Char) : Option State := (ofRow? row).bind state.step

def run (state : State) (rows : List (List Char)) : Option State := rows.foldlM read state

end State

/-- Wherever the rows stand, they are read as the statements. -/
def Reads (rows : List (List Char)) (statements : List Outline) : Prop :=
  ∀ state : State, state.run rows = some { state with current := state.current ++ statements }

variable {rs rs' : List (List Char)} {first middle last row : List Char} {header : String}
  {statements statements' : List Outline}

theorem reads_nil : Reads [] [] := fun state => by simp [State.run]

theorem State.run_append (state : State) :
    state.run (rs ++ rs') = (state.run rs).bind (·.run rs') := by
  simp [run, List.foldlM_append]

theorem State.run_cons (state : State) : state.run (row :: rs) = (state.read row).bind (·.run rs) :=
  rfl

theorem Reads.append (h : Reads rs statements) (h' : Reads rs' statements') :
    Reads (rs ++ rs') (statements ++ statements') := by
  intro state
  rw [State.run_append, h, Option.bind_some, h', List.append_assoc]

theorem reads_statement {empty : Nat} (h : ofRow? row = some (.statement header.toList empty)) :
    Reads [row] [.node header (List.replicate empty [])] := by
  intro state
  rw [State.run_cons, State.read, h, Option.bind_some, State.step, String.ofList_toList]
  rfl

theorem read_opening {empty : Nat} (h : ofRow? row = some (.opening header.toList empty))
    (state : State) : state.read row =
      some ⟨⟨state.current, header.toList, List.replicate empty []⟩ :: state.frames, []⟩ := by
  rw [State.read, h]
  rfl

theorem read_closing {empty : Nat} (h : ofRow? row = some (.closing empty)) (frames : List Frame)
    (before : List Outline) (bodies : List (List Outline)) :
    State.read ⟨⟨before, header.toList, bodies⟩ :: frames, statements⟩ row =
      some ⟨frames, before ++
        [.node header (bodies ++ statements :: List.replicate empty [])]⟩ := by
  rw [State.read, h, Option.bind_some]
  simp only [State.step, String.ofList_toList]

/-- A statement with one body that is not empty. -/
theorem Reads.body {empty empty' : Nat}
    (hfirst : ofRow? first = some (.opening header.toList empty)) (h : Reads rs statements)
    (hlast : ofRow? last = some (.closing empty')) :
    Reads (first :: (rs ++ [last])) [.node header
      (List.replicate empty [] ++ statements :: List.replicate empty' [])] := by
  intro state
  rw [State.run_cons, read_opening hfirst, Option.bind_some, State.run_append, h,
    Option.bind_some, List.nil_append, State.run_cons, read_closing hlast]
  rfl

/-- A statement with two bodies that are not empty. -/
theorem Reads.bodies (hfirst : ofRow? first = some (.opening header.toList 0))
    (h : Reads rs statements) (hmiddle : ofRow? middle = some .divider)
    (h' : Reads rs' statements') (hlast : ofRow? last = some (.closing 0)) :
    Reads (first :: (rs ++ middle :: (rs' ++ [last])))
      [.node header [statements, statements']] := by
  intro state
  have hdivided : ∀ frames, State.read
      ⟨⟨state.current, header.toList, []⟩ :: frames, statements⟩ middle =
        some ⟨⟨state.current, header.toList, [statements]⟩ :: frames, []⟩ := by
    intro frames
    rw [State.read, hmiddle]
    rfl
  rw [State.run_cons, read_opening hfirst, Option.bind_some, State.run_append, h,
    Option.bind_some, List.nil_append, State.run_cons, List.replicate_zero, hdivided,
    Option.bind_some, State.run_append, h', Option.bind_some, List.nil_append, State.run_cons,
    read_closing hlast]
  rfl

section Rows

variable {code code' : String}

theorem rows_feed (code code' : String) :
    rows (code ++ "\n" ++ code') = rows code ++ rows code' := by
  have hchars : (code ++ "\n" ++ code').toList = code.toList ++ '\n' :: code'.toList := by simp
  rw [rows, hchars, List.splitOn_append_cons_self, List.map_append]
  rfl

theorem rows_of_not_mem (h : '\n' ∉ code.toList) :
    rows code = [code.toList.dropWhile (· == ' ')] := by
  rw [rows, List.splitOn_eq_singleton h, List.map_singleton]

theorem rows_intercalate (codes : List String) (hne : codes ≠ []) :
    rows ("\n".intercalate codes) = codes.flatMap rows := by
  induction codes with
  | nil => exact absurd rfl hne
  | cons code rest ih =>
      cases rest with
      | nil => simp
      | cons next rest =>
          rw [String.intercalate_cons_cons, rows_feed, ih (List.cons_ne_nil next rest)]
          rfl

/-- The rows do not depend on the indentation. -/
theorem rows_indent (h : Tidy code) (width : Nat) : rows (indent width code) = rows code := by
  have hdrop : ∀ line : List Char,
      (List.replicate width ' ' ++ line).dropWhile (· == ' ') = line.dropWhile (· == ' ') := by
    intro line
    induction width with
    | zero => rfl
    | succ width ih => exact ih
  have hfeed : ∀ line ∈ (code.toList.splitOn '\n').map (List.replicate width ' ' ++ ·),
      '\n' ∉ line := by
    refine List.forall_mem_map.2 fun line hline => ?_
    simp [(mem_splitOn hline).1]
  rw [rows, h.toList_indent, List.splitOn_intercalate '\n' hfeed (by simp), List.map_map]
  exact List.map_congr_left fun line _ => hdrop line

theorem rows_inBrackets (head : String) {body : String} (hbody : body ≠ "") (rest : String) :
    rows (head ++ BodyForm.inBrackets body ++ rest) =
      rows (head ++ "[") ++ (rows body ++ rows ("]" ++ rest)) := by
  have hlines : head ++ BodyForm.inBrackets body ++ rest =
      head ++ "[" ++ "\n" ++ body ++ "\n" ++ ("]" ++ rest) := by
    rw [BodyForm.inBrackets, if_neg (by simpa using hbody)]
    simp [← String.toList_inj]
  rw [hlines, rows_feed, rows_feed, List.append_assoc]

theorem rows_append_inBrackets (head : String) {body : String} (hbody : body ≠ "") :
    rows (head ++ BodyForm.inBrackets body) =
      rows (head ++ "[") ++ (rows body ++ ["]".toList]) := by
  have hrows := rows_inBrackets head hbody ""
  rwa [String.append_empty] at hrows

end Rows

/-- The text in a body is read as the statements. -/
def IsBody (text : String) (statements : List Outline) : Prop :=
  (text = "" ∧ statements = []) ∨ (text ≠ "" ∧ Reads (rows text) statements)

/-- The text begins a statement with the ending. Its first row tells so, whatever follows on it. -/
structure Begins (head : String) (ending : Ending) : Prop where
  feed : '\n' ∉ head.toList
  ne_empty : head ≠ ""
  blank : head.toList.dropWhile (· == ' ') = head.toList
  entry : ∀ rest, (ending = .plain → rest = "") →
    ofRow? (head ++ rest).toList = some (ofEnding (head ++ rest).toList ending)

namespace Begins

variable {head body body' : String}

theorem rows_eq {ending : Ending} (h : Begins head ending) {rest : String}
    (hrest : '\n' ∉ rest.toList) : rows (head ++ rest) = [(head ++ rest).toList] := by
  have hfeed : '\n' ∉ (head ++ rest).toList := by simp [h.feed, hrest]
  rw [rows_of_not_mem hfeed, String.toList_append, List.dropWhile_append, h.blank, if_neg]
  simpa using h.ne_empty

theorem reads_plain (h : Begins head .plain) : Reads (rows head) [.node head []] := by
  have hentry := h.entry "" fun _ => rfl
  have hrows := h.rows_eq (show '\n' ∉ "".toList by decide)
  rw [String.append_empty] at hentry hrows
  rw [hrows]
  exact reads_statement hentry

theorem reads_loop (h : Begins head .loop) (hbody : IsBody body statements) :
    Reads (rows (head ++ BodyForm.inBrackets body)) [.node (head ++ "[]") [statements]] := by
  rcases hbody with ⟨rfl, rfl⟩ | ⟨hne, hbody⟩
  · have hentry : ofRow? (head ++ "[]").toList = some (.statement (head ++ "[]").toList 1) := by
      rw [h.entry _ nofun, ofEnding, if_neg (by simp)]
    rw [show BodyForm.inBrackets "" = "[]" from rfl, h.rows_eq (by decide)]
    exact reads_statement hentry
  · have hfirst : ofRow? (head ++ "[").toList = some (.opening (head ++ "[]").toList 0) := by
      rw [h.entry _ nofun, ofEnding, if_pos (by simp)]
      simp
    rw [rows_append_inBrackets head hne, h.rows_eq (by decide)]
    exact hbody.body hfirst ofRow?_bracket

theorem reads_optional (h : Begins head .optional) (hlast : head.toList.getLast? ≠ some '[')
    (hbody : IsBody body statements) :
    Reads (rows (head ++ BodyForm.optional.text body)) [.node head [statements]] := by
  rcases hbody with ⟨rfl, rfl⟩ | ⟨hne, hbody⟩
  · have hentry := h.entry "" nofun
    have hrows := h.rows_eq (show '\n' ∉ "".toList by decide)
    rw [String.append_empty] at hentry hrows
    rw [ofEnding, if_neg hlast] at hentry
    rw [show BodyForm.optional.text "" = "" from rfl, String.append_empty, hrows]
    exact reads_statement hentry
  · have hfirst : ofRow? (head ++ " [").toList = some (.opening head.toList 0) := by
      rw [h.entry _ nofun, ofEnding, if_pos (by simp)]
      simp
    have hrow : rows (head ++ " " ++ "[") = [(head ++ " [").toList] := by
      rw [String.append_assoc]
      exact h.rows_eq (by decide)
    rw [BodyForm.text, if_neg (by simpa using hne), ← String.append_assoc,
      rows_append_inBrackets _ hne, hrow]
    exact hbody.body hfirst ofRow?_bracket

theorem reads_definition (h : Begins head .definition) (hbody : IsBody body statements) :
    Reads (rows (head ++ BodyForm.ownLines.text body ++ "\nend"))
      [.node (head ++ "\nend") [statements]] := by
  have hfirst : ofRow? head.toList = some (.opening (head ++ "\nend").toList 0) := by
    have hentry := h.entry "" nofun
    rw [String.append_empty] at hentry
    rw [hentry, ofEnding, String.toList_append]
  have hrow : rows head = [head.toList] := by
    have hrows := h.rows_eq (show '\n' ∉ "".toList by decide)
    rwa [String.append_empty] at hrows
  rcases hbody with ⟨rfl, rfl⟩ | ⟨hne, hbody⟩
  · have hlines : head ++ BodyForm.ownLines.text "" ++ "\nend" = head ++ "\n" ++ "end" := by
      simp [← String.toList_inj, BodyForm.text]
    rw [hlines, rows_feed, hrow]
    exact reads_nil.body hfirst ofRow?_end
  · have hlines : head ++ BodyForm.ownLines.text body ++ "\nend" =
        head ++ "\n" ++ body ++ "\n" ++ "end" := by
      rw [BodyForm.text, if_neg (by simpa using hne)]
      simp [← String.toList_inj]
    rw [hlines, rows_feed, rows_feed, hrow, List.append_assoc]
    exact hbody.body hfirst ofRow?_end

/-- The first body is empty when an empty pair of brackets stands before the last bracket of the
first row, so what stands before the bodies may not end in one. -/
theorem reads_branches (h : Begins head .branches) (hbare : ¬"[] ".toList <:+ head.toList)
    (hbody : IsBody body statements) (hbody' : IsBody body' statements') :
    Reads (rows (head ++ BodyForm.inBrackets body ++ " " ++ BodyForm.inBrackets body'))
      [.node (head ++ "[] []") [statements, statements']] := by
  have hsecond : ofRow? (head ++ "[] [").toList = some (.opening (head ++ "[] []").toList 1) := by
    rw [h.entry _ nofun, ofEnding, if_pos (by simp)]
    simp
  have hfirst : ofRow? (head ++ "[").toList = some (.opening (head ++ "[] []").toList 0) := by
    have hsuffix : ¬"[] [".toList <:+ (head ++ "[").toList := by
      have hsplit : "[] [".toList = "[] ".toList ++ "[".toList := rfl
      rw [hsplit, String.toList_append, List.suffix_append_inj_of_length_eq rfl]
      exact fun hsuffix => hbare hsuffix.1
    rw [h.entry _ nofun, ofEnding, if_neg hsuffix, if_pos (by simp)]
    simp
  have hempty : BodyForm.inBrackets "" = "[]" := rfl
  rcases hbody with ⟨rfl, rfl⟩ | ⟨hne, hbody⟩
  · rcases hbody' with ⟨rfl, rfl⟩ | ⟨hne', hbody'⟩
    · have hentry : ofRow? (head ++ "[] []").toList =
          some (.statement (head ++ "[] []").toList 2) := by
        have hsuffix : ¬"[] [".toList <:+ (head ++ "[] []").toList := by
          rintro ⟨front, hfront⟩
          simpa using congrArg List.getLast? hfront
        rw [h.entry _ nofun, ofEnding, if_neg hsuffix, if_neg (by simp)]
      rw [hempty, String.append_assoc, String.append_assoc, h.rows_eq (by decide)]
      exact reads_statement hentry
    · have hrow : rows (head ++ "[]" ++ " " ++ "[") = [(head ++ "[] [").toList] := by
        rw [String.append_assoc, String.append_assoc]
        exact h.rows_eq (by decide)
      rw [hempty, rows_append_inBrackets _ hne', hrow]
      exact hbody'.body hsecond ofRow?_bracket
  · rw [String.append_assoc, rows_inBrackets _ hne, h.rows_eq (by decide)]
    rcases hbody' with ⟨rfl, rfl⟩ | ⟨hne', hbody'⟩
    · have hclosing : ofRow? "] []".toList = some (.closing 1) := rfl
      exact hbody.body hfirst hclosing
    · have hdivider : ofRow? "] [".toList = some .divider := rfl
      rw [← String.append_assoc, rows_append_inBrackets _ hne']
      exact hbody.bodies hfirst hdivider hbody' ofRow?_bracket

end Begins

end Outline

end AgentBlocks
