import AgentBlocks.Proofs.Text.Lines

/-!
Texts whose lines are moved to the right level by level. What such a text says does not depend on
the width of a level, and this is kept when texts are put together and when a text is indented.
-/
namespace AgentBlocks.Text

/-- A line without its indentation, and the number of levels by which it is moved. -/
structure Row where
  depth : Nat
  content : List Char

namespace Row

def chars (width : Nat) (row : Row) : List Char :=
  List.replicate (row.depth * width) ' ' ++ row.content

/-- The rows one below the other. -/
def text (width : Nat) (rows : List Row) : String :=
  "\n".intercalate (rows.map fun row => String.ofList (row.chars width))

/-- The row one level further to the right; an empty line stays where it is. -/
def deeper (row : Row) : Row :=
  if row.depth = 0 ∧ row.content = [] then row else { row with depth := row.depth + 1 }

/-- The rows of the indented text. Carriage returns before line feeds are lost, and so is a last
line that is empty. -/
def indented : List Row → List Row
  | [] => []
  | [row] => if row.content = [] then [] else [row.deeper]
  | row :: rest => { row with content := chomp row.content }.deeper :: indented rest

variable {width : Nat} {row : Row} {rows rest : List Row}

theorem indentLine_chars (width : Nat) (row : Row) :
    indentLine width (row.chars width) = row.deeper.chars width := by
  obtain ⟨depth, content⟩ := row
  unfold indentLine deeper chars
  by_cases hempty : depth = 0 ∧ content = []
  · simp [hempty]
  · rw [if_neg hempty]
    split
    · rename_i hblank
      simp only [List.isEmpty_iff, List.append_eq_nil_iff, List.replicate_eq_nil_iff,
        Nat.mul_eq_zero] at hblank
      obtain ⟨hdepth | hwidth, rfl⟩ := hblank
      · exact absurd ⟨hdepth, rfl⟩ hempty
      · simp [hwidth]
    · simp only [← List.append_assoc, List.replicate_append_replicate]
      rw [Nat.succ_mul, Nat.add_comm]

theorem chomp_chars (width : Nat) (row : Row) :
    chomp (row.chars width) = { row with content := chomp row.content }.chars width := by
  obtain ⟨depth, content⟩ := row
  rcases List.eq_nil_or_concat' content with rfl | ⟨front, c, rfl⟩
  · unfold chomp chars
    rw [if_neg]
    · rfl
    · simp [List.getLast?_replicate]
  · simp only [chars, ← List.append_assoc, chomp_concat]
    split <;> simp

theorem feed_not_mem_chars (h : '\n' ∉ row.content) : '\n' ∉ row.chars width := by
  simp [chars, h]

theorem toList_text (width : Nat) (rows : List Row) :
    (text width rows).toList = ['\n'].intercalate (rows.map (·.chars width)) := by
  simp [text, String.toList_intercalate, Function.comp_def]

theorem toList_text_singleton (width : Nat) (row : Row) :
    (text width [row]).toList = row.chars width := by
  simp [text]

theorem toList_text_cons (width : Nat) (row : Row) (h : rest ≠ []) :
    (text width (row :: rest)).toList = row.chars width ++ '\n' :: (text width rest).toList := by
  obtain ⟨next, rest, rfl⟩ := List.exists_cons_of_ne_nil h
  simp [text, String.intercalate_cons_cons, String.toList_append]

/-- Rows that do not depend on the width at their two ends. -/
structure Upright (rows : List Row) : Prop where
  feed : ∀ row ∈ rows, '\n' ∉ row.content
  first : ∀ row ∈ rows.head?, row.depth = 0
  last : ∀ row ∈ rows.getLast?, row.depth = 0

theorem lines_text (width : Nat) (hfeed : ∀ row ∈ rows, '\n' ∉ row.content)
    (hlast : ∀ row ∈ rows.getLast?, row.depth = 0) :
    (lines (text width rows).toList).map (indentLine width) =
      (indented rows).map (·.chars width) := by
  induction rows with
  | nil => rfl
  | cons row rest ih =>
      obtain ⟨hrow, hrest⟩ := List.forall_mem_cons.1 hfeed
      cases rest with
      | nil =>
          have hdepth : row.depth = 0 := hlast row rfl
          have hchars : (row.chars width).isEmpty = true ↔ row.content = [] := by
            simp [chars, hdepth]
          rw [toList_text_singleton, lines_of_not_mem (feed_not_mem_chars hrow), indented]
          by_cases hempty : row.content = []
          · rw [if_pos (hchars.2 hempty), if_pos hempty]
            rfl
          · rw [if_neg (mt hchars.1 hempty), if_neg hempty, List.map_singleton,
              indentLine_chars, List.map_singleton]
      | cons next rest =>
          have hrest := ih hrest fun row' h => hlast row' (by simpa using h)
          rw [toList_text_cons width row (List.cons_ne_nil next rest),
            lines_append_feed (feed_not_mem_chars hrow), List.map_cons, chomp_chars,
            indentLine_chars, hrest]
          rfl

/-- Indenting moves the rows to the right, whatever the width is. -/
theorem indent_text (width : Nat) (h : Upright rows) :
    indent width (text width rows) = text width (indented rows) := by
  have hlines := congrArg (List.map String.ofList) (lines_text width h.feed h.last)
  simp only [List.map_map, Function.comp_def] at hlines
  rw [indent, hlines, text]

/-- The first row of a text goes on where the last row of the text before it ends. -/
theorem text_append_text (width : Nat) (before rest : List Row) (row : Row) {row' : Row}
    (h : row'.depth = 0) :
    text width (before ++ [row]) ++ text width (row' :: rest) =
      text width (before ++ { row with content := row.content ++ row'.content } :: rest) := by
  have hseam : { row with content := row.content ++ row'.content }.chars width =
      row.chars width ++ row'.chars width := by
    simp [chars, h]
  rw [← String.toList_inj, String.toList_append]
  induction before with
  | nil =>
      rw [List.nil_append, List.nil_append, toList_text_singleton]
      cases rest with
      | nil => rw [toList_text_singleton, toList_text_singleton, hseam]
      | cons next rest =>
          have hrest := List.cons_ne_nil next rest
          rw [toList_text_cons width row' hrest, toList_text_cons width _ hrest, hseam,
            List.append_assoc]
  | cons first before ih =>
      have hleft : before ++ [row] ≠ [] := List.append_ne_nil_of_right_ne_nil _ (by simp)
      have hright : before ++ { row with content := row.content ++ row'.content } :: rest ≠ [] :=
        List.append_ne_nil_of_right_ne_nil _ (by simp)
      rw [List.cons_append, List.cons_append, toList_text_cons width first hleft,
        toList_text_cons width first hright, ← ih, List.append_assoc, List.cons_append]

theorem text_cons (width : Nat) (row : Row) (h : rest ≠ []) :
    text width (row :: rest) = String.ofList (row.chars width) ++ "\n" ++ text width rest := by
  rw [← String.toList_inj, toList_text_cons width row h]
  simp

theorem text_concat (width : Nat) (row : Row) (h : rows ≠ []) :
    text width (rows ++ [row]) = text width rows ++ "\n" ++ String.ofList (row.chars width) := by
  induction rows with
  | nil => exact absurd rfl h
  | cons first rest ih =>
      cases rest with
      | nil => rw [List.singleton_append, text_cons width first (List.cons_ne_nil row [])]; rfl
      | cons next rest =>
          have hrest := List.cons_ne_nil next rest
          rw [List.cons_append, text_cons width first (List.append_ne_nil_of_left_ne_nil hrest _),
            ih hrest, text_cons width first hrest]
          simp only [String.append_assoc]

end Row

open Row

/-- The widths scale the leading blanks of a text and change nothing else. -/
def Scales (text : Nat → String) : Prop :=
  ∃ rows, Upright rows ∧ ∀ width, text width = Row.text width rows

theorem scales_const (s : String) : Scales fun _ => s := by
  refine ⟨(s.toList.splitOn '\n').map (⟨0, ·⟩), ⟨?_, ?_, ?_⟩, fun width => ?_⟩
  · simp only [List.forall_mem_map]
    exact fun line hline => (mem_splitOn hline).1
  · simp [List.head?_map]
  · simp [List.getLast?_map]
  · rw [← String.toList_inj, toList_text, List.map_map]
    have hchars : (fun row => row.chars width) ∘ (⟨0, ·⟩ : List Char → Row) = id := by
      funext line
      simp [chars]
    rw [hchars, List.map_id, List.intercalate_splitOn]

theorem scales_empty : Scales fun _ => "" := ⟨[], ⟨nofun, nofun, nofun⟩, fun _ => rfl⟩

variable {text text' : Nat → String}

theorem Scales.append (h : Scales text) (h' : Scales text') :
    Scales fun width => text width ++ text' width := by
  obtain ⟨rows, hrows, htext⟩ := h
  obtain ⟨rows', hrows', htext'⟩ := h'
  simp only [htext, htext']
  rcases List.eq_nil_or_concat' rows with rfl | ⟨before, row, rfl⟩
  · exact ⟨rows', hrows', fun _ => String.empty_append⟩
  · cases rows' with
    | nil => exact ⟨_, hrows, fun _ => String.append_empty⟩
    | cons row' rest =>
        have hfirst : row'.depth = 0 := hrows'.first row' rfl
        have hlast : row.depth = 0 := hrows.last row (by simp)
        obtain ⟨hbefore, hrow⟩ := List.forall_mem_append.1 hrows.feed
        obtain ⟨hrow', hrest⟩ := List.forall_mem_cons.1 hrows'.feed
        refine ⟨_, ⟨?_, ?_, ?_⟩, fun width => text_append_text width before rest row hfirst⟩
        · refine List.forall_mem_append.2 ⟨hbefore, List.forall_mem_cons.2 ⟨?_, hrest⟩⟩
          simp [List.forall_mem_singleton.1 hrow, hrow']
        · cases before with
          | nil => simp [hlast]
          | cons first before => exact hrows.first
        · cases rest with
          | nil => simp [hlast]
          | cons next rest => simpa using hrows'.last

theorem scales_intercalate (separator : String) {texts : List (Nat → String)}
    (h : ∀ text ∈ texts, Scales text) :
    Scales fun width => separator.intercalate (texts.map (· width)) := by
  induction texts with
  | nil => exact scales_empty
  | cons text rest ih =>
      obtain ⟨htext, hrest⟩ := List.forall_mem_cons.1 h
      cases rest with
      | nil => exact htext
      | cons next rest =>
          simp only [List.map_cons, String.intercalate_cons_cons] at ih ⊢
          exact (htext.append (scales_const separator)).append (ih hrest)

/-- Whether rows have a text at all is the same for every width. -/
theorem Row.text_eq_empty_or {rows : List Row}
    (h : ∀ row, rows = [row] → row.content = [] → row.depth = 0) :
    (∀ width, Row.text width rows = "") ∨ ∀ width, Row.text width rows ≠ "" := by
  simp only [ne_eq, ← String.toList_eq_nil_iff]
  match rows with
  | [] => exact .inl fun _ => rfl
  | [row] =>
      simp only [toList_text_singleton, chars, List.append_eq_nil_iff, not_and]
      by_cases hcontent : row.content = []
      · exact .inl fun width => by simp [h row rfl hcontent, hcontent]
      · exact .inr fun width _ => hcontent
  | row :: next :: rest =>
      refine .inr fun width => ?_
      rw [toList_text_cons width row (List.cons_ne_nil next rest)]
      simp

theorem Scales.eq_empty_or (h : Scales text) :
    (∀ width, text width = "") ∨ ∀ width, text width ≠ "" := by
  obtain ⟨rows, hrows, htext⟩ := h
  simp only [htext]
  refine Row.text_eq_empty_or fun row hrow _ => ?_
  subst hrow
  exact hrows.first row rfl

@[simp] theorem Row.content_deeper (row : Row) : row.deeper.content = row.content := by
  unfold deeper
  split <;> rfl

theorem Row.feed_not_mem_indented {rows : List Row} (h : ∀ row ∈ rows, '\n' ∉ row.content) :
    ∀ row ∈ indented rows, '\n' ∉ row.content := by
  induction rows with
  | nil => exact nofun
  | cons row rest ih =>
      obtain ⟨hrow, hrest⟩ := List.forall_mem_cons.1 h
      cases rest with
      | nil =>
          rw [indented]
          split
          · exact nofun
          · simpa using hrow
      | cons next rest =>
          refine List.forall_mem_cons.2 ⟨?_, ih hrest⟩
          rw [content_deeper]
          exact fun hfeed => hrow (chomp_subset row.content hfeed)

/-- The first line of an indented text is empty for every width or for none. -/
theorem Row.depth_eq_zero_of_indented {rows : List Row} (h : Upright rows) {row : Row}
    (hrow : indented rows = [row]) (hcontent : row.content = []) : row.depth = 0 := by
  match rows with
  | [] => cases hrow
  | [only] =>
      rw [indented] at hrow
      split at hrow
      · cases hrow
      · rename_i hfilled
        cases hrow
        exact absurd (content_deeper only ▸ hcontent) hfilled
  | first :: next :: rest =>
      obtain ⟨rfl, -⟩ := List.cons.inj hrow
      rw [content_deeper] at hcontent
      have hfirst : first.depth = 0 := h.first first rfl
      rw [deeper, if_pos ⟨hfirst, hcontent⟩]
      exact hfirst

theorem Scales.indent_eq_empty_or (h : Scales text) :
    (∀ width, indent width (text width) = "") ∨ ∀ width, indent width (text width) ≠ "" := by
  obtain ⟨rows, hrows, htext⟩ := h
  simp only [htext, indent_text _ hrows]
  exact Row.text_eq_empty_or fun row => depth_eq_zero_of_indented hrows

/-- An indented text on lines of its own. -/
theorem Scales.indent (h : Scales text) :
    Scales fun width => "\n" ++ indent width (text width) ++ "\n" := by
  obtain ⟨rows, hrows, htext⟩ := h
  simp only [htext, indent_text _ hrows]
  have hfeed := feed_not_mem_indented hrows.feed
  -- without rows there is an empty line between the two line feeds
  obtain ⟨body, hbody, hfeed, hsame⟩ : ∃ body : List Row, body ≠ [] ∧
      (∀ row ∈ body, '\n' ∉ row.content) ∧
      ∀ width, Row.text width (indented rows) = Row.text width body := by
    cases hempty : indented rows with
    | nil => exact ⟨[⟨0, []⟩], by simp, by simp, fun _ => by simp [Row.text, chars]⟩
    | cons row rest => exact ⟨row :: rest, by simp, hempty ▸ hfeed, fun _ => rfl⟩
  have hblank : ∀ width, String.ofList (chars width ⟨0, []⟩) = "" := fun _ => by simp [chars]
  refine ⟨⟨0, []⟩ :: body ++ [⟨0, []⟩], ⟨?_, ?_, ?_⟩, fun width => ?_⟩
  · simpa [or_imp, forall_and] using hfeed
  · simp
  · rw [List.getLast?_concat]
    simp
  · rw [List.cons_append, text_cons width _ (by simp), text_concat width _ hbody, hblank]
    simp [hsame, String.append_assoc]

end AgentBlocks.Text
