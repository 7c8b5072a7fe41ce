import AgentBlocks.Proofs.Text.Lines
import AgentBlocks.Proofs.Text.Words
import AgentBlocks.Text.Blank
import AgentBlocks.Text.Case
import Mathlib.Algebra.GroupWithZero.Nat
import Mathlib.Data.Bool.Basic
import Mathlib.Data.List.TakeWhile

/-!
Lines that consist of the word `end`, in any case and with blanks around it. Their number is that of
the parts of a text, where the parts do not share such a line.
-/
namespace AgentBlocks.Text

variable {x y line more : List Char} {a b : String}

theorem trim_append_left (h : x.all isBlank = true) (line : List Char) :
    trim (x ++ line) = trim line := by
  rw [trim, List.dropWhile_append_of_pos (List.all_eq_true.1 h)]
  rfl

theorem trim_append_right (line : List Char) (h : y.all isBlank = true) :
    trim (line ++ y) = trim line := by
  have hy : ∀ c ∈ y.reverse, isBlank c = true := fun c hc =>
    List.all_eq_true.1 h c (List.mem_reverse.1 hc)
  rw [trim, trim, List.dropWhile_append]
  split
  · rename_i hline
    rw [List.isEmpty_iff.1 hline, List.dropWhile_eq_nil_iff.2 (List.all_eq_true.1 h)]
  · rw [List.reverse_append, List.dropWhile_append_of_pos hy]

theorem trim_of_filled (h : ∀ c ∈ line, isBlank c = false) : trim line = line := by
  have hkeep : ∀ {cs : List Char}, (∀ c ∈ cs, isBlank c = false) → cs.dropWhile isBlank = cs := by
    intro cs hcs
    cases cs with
    | nil => rfl
    | cons c cs => exact List.dropWhile_cons_of_neg (by simp [hcs c List.mem_cons_self])
  rw [trim, hkeep h, hkeep fun c hc => h c (List.mem_reverse.1 hc), List.reverse_reverse]

/-- A line is its trimmed text between blanks. -/
theorem exists_eq_append_trim (line : List Char) :
    ∃ x y, x.all isBlank = true ∧ y.all isBlank = true ∧ line = x ++ trim line ++ y := by
  have hleft := List.takeWhile_append_dropWhile (p := isBlank) (l := line)
  have hright := List.takeWhile_append_dropWhile (p := isBlank)
    (l := (line.dropWhile isBlank).reverse)
  refine ⟨line.takeWhile isBlank, ((line.dropWhile isBlank).reverse.takeWhile isBlank).reverse,
    List.all_takeWhile, ?_, ?_⟩
  · rw [List.all_reverse]
    exact List.all_takeWhile
  · rw [trim, List.append_assoc, ← List.reverse_append, hright, List.reverse_reverse, hleft]

def isEndLine (line : List Char) : Bool := sameName (String.ofList (trim line)) "end"

/-- The number of lines that consist of the word `end`. -/
def endLines (text : String) : Nat := (text.toList.splitOn '\n').countP isEndLine

theorem isEndLine_nil : isEndLine [] = false := by decide +kernel

theorem isEndLine_append_left (h : x.all isBlank = true) (line : List Char) :
    isEndLine (x ++ line) = isEndLine line := by
  rw [isEndLine, trim_append_left h, isEndLine]

theorem isEndLine_append_right (line : List Char) (h : y.all isBlank = true) :
    isEndLine (line ++ y) = isEndLine line := by
  rw [isEndLine, trim_append_right line h, isEndLine]

theorem isEndLine_trim (line : List Char) : isEndLine (trim line) = isEndLine line := by
  obtain ⟨x, y, hx, hy, heq⟩ := exists_eq_append_trim line
  conv_rhs => rw [heq, isEndLine_append_right _ hy, isEndLine_append_left hx]

/-- A line of `end` is the word between blanks. -/
theorem exists_of_isEndLine (h : isEndLine line = true) : ∃ x w y, line = x ++ (w ++ y) ∧
    x.all isBlank = true ∧ y.all isBlank = true ∧ isEndLine w = true ∧
      w.map Char.toLower = ['e', 'n', 'd'] := by
  obtain ⟨x, y, hx, hy, heq⟩ := exists_eq_append_trim line
  refine ⟨x, trim line, y, by rwa [List.append_assoc] at heq, hx, hy,
    (isEndLine_trim line).trans h, ?_⟩
  have hfold := congrArg String.toList (sameName_iff.1 h)
  rw [fold, String.toList_map, String.toList_ofList] at hfold
  exact hfold.trans (by decide +kernel)

/-- The text makes no line of `end`, whatever follows it on its line. -/
def Settled (cs : List Char) : Prop := ∀ more, isEndLine (cs ++ more) = false

/-- The character is no blank and stands in no spelling of `end`. -/
def isStriking (c : Char) : Bool := !isBlank c && !(['e', 'n', 'd'].contains c.toLower)

theorem settled_of_striking (h : line.any isStriking = true) : Settled line := by
  obtain ⟨c, hc, hstriking⟩ := List.any_eq_true.1 h
  rw [isStriking, Bool.and_eq_true, Bool.not_eq_true', Bool.not_eq_true', List.contains_eq_mem,
    decide_eq_false_iff_not] at hstriking
  intro more
  rw [Bool.eq_false_iff]
  intro hend
  obtain ⟨x, w, y, heq, hx, hy, -, hw⟩ := exists_of_isEndLine hend
  have hmem : c ∈ x ++ (w ++ y) := heq ▸ List.mem_append_left more hc
  have hfilled : ∀ {z : List Char}, z.all isBlank = true → c ∉ z := by
    intro z hz hcz
    have hblank := List.all_eq_true.1 hz c hcz
    rw [hstriking.1] at hblank
    cases hblank
  rcases List.mem_append.1 hmem with hmem | hmem
  · exact hfilled hx hmem
  · rcases List.mem_append.1 hmem with hmem | hmem
    · exact hstriking.2 (hw ▸ List.mem_map_of_mem hmem)
    · exact hfilled hy hmem

/-- A word that is not `end` settles its line once a blank stands behind it. -/
theorem settled_blank (hfilled : line.all isBlank = false) (hend : isEndLine line = false) :
    Settled (line ++ [' ']) := by
  intro more
  rw [Bool.eq_false_iff]
  intro hmore
  obtain ⟨x, w, y, heq, hx, hy, hword, hw⟩ := exists_of_isEndLine hmore
  rw [List.append_assoc, List.singleton_append] at heq
  rcases List.append_eq_append_iff.1 heq with ⟨z, rfl, -⟩ | ⟨z, rfl, hrest⟩
  · -- the line would be among the blanks before the word
    rw [List.all_append, hfilled, Bool.false_and] at hx
    cases hx
  · rw [isEndLine_append_left hx] at hend
    rcases List.append_eq_append_iff.1 hrest with ⟨z', rfl, hy'⟩ | ⟨z', rfl, hblank⟩
    · rw [hy', List.all_append, Bool.and_eq_true] at hy
      rw [isEndLine_append_right w hy.1, hword] at hend
      cases hend
    · cases z' with
      | nil =>
          rw [List.append_nil, hend] at hword
          cases hword
      | cons c z' =>
          obtain ⟨rfl, -⟩ := List.cons.inj hblank
          have hmem : Char.toLower ' ' ∈ ['e', 'n', 'd'] := hw ▸ List.mem_map_of_mem (by simp)
          exact absurd hmem (by decide)

section Seams

def firstLine (text : String) : List Char := (text.toList.splitOn '\n').headD []

/-- The number of lines after the first one that consist of the word `end`. -/
def endLinesBelow (text : String) : Nat := (text.toList.splitOn '\n').tail.countP isEndLine

theorem endLines_eq_below (text : String) :
    endLines text = endLinesBelow text + (isEndLine (firstLine text)).toNat := by
  obtain ⟨first, rest, hsplit⟩ := List.exists_cons_of_ne_nil
    (List.splitOn_ne_nil '\n' text.toList)
  rw [endLines, endLinesBelow, firstLine, hsplit, List.countP_cons]
  cases h : isEndLine first <;> simp [h]

theorem splitOn_feed (a b : String) : (a ++ "\n" ++ b).toList.splitOn '\n' =
    a.toList.splitOn '\n' ++ b.toList.splitOn '\n' := by
  rw [← List.splitOn_append_cons_self]
  simp

theorem endLinesBelow_feed (a b : String) :
    endLinesBelow (a ++ "\n" ++ b) = endLinesBelow a + endLines b := by
  rw [endLinesBelow, splitOn_feed, List.tail_append_of_ne_nil (List.splitOn_ne_nil _ _),
    List.countP_append, endLinesBelow, endLines]

theorem endLines_empty : endLines "" = 0 := by decide +kernel

theorem endLines_eq_countP (text : String) :
    endLines text = (filledLines text).countP fun line => isEndLine line.toList := by
  rw [endLines, filledLines, List.countP_map, List.countP_filter]
  refine List.countP_congr fun line _ => ?_
  cases line with
  | nil => simp [isEndLine_nil]
  | cons c line => simp

theorem endLines_intercalate_feed (codes : List String) :
    endLines ("\n".intercalate codes) = (codes.map endLines).sum := by
  rw [endLines_eq_countP, filledLines_intercalate_feed, List.countP_flatMap]
  exact congrArg List.sum (List.map_congr_left fun code _ => (endLines_eq_countP code).symm)

theorem endLines_intercalate_blankLine (codes : List String) :
    endLines ("\n\n".intercalate codes) = (codes.map endLines).sum := by
  rw [endLines_eq_countP, filledLines_intercalate_blankLine, List.countP_flatMap]
  exact congrArg List.sum (List.map_congr_left fun code _ => (endLines_eq_countP code).symm)

/-- Empty texts have no lines of `end`. -/
theorem sum_endLines_filter (codes : List String) :
    ((codes.filter (!·.isEmpty)).map endLines).sum = (codes.map endLines).sum := by
  induction codes with
  | nil => rfl
  | cons code rest ih =>
      rw [List.filter_cons, List.map_cons, List.sum_cons, ← ih]
      split
      · rw [List.map_cons, List.sum_cons]
      · rename_i hempty
        obtain rfl : code = "" := by simpa using hempty
        rw [endLines_empty, Nat.zero_add]

theorem endLinesBelow_of_not_mem (h : '\n' ∉ a.toList) : endLinesBelow a = 0 := by
  rw [endLinesBelow, List.splitOn_eq_singleton h]
  rfl

/-- What is put behind a text changes its last line only. -/
theorem splitOn_seam (cs ds : List Char) : ∃ front last, cs.splitOn '\n' = front ++ [last] ∧
    (cs ++ ds).splitOn '\n' = front ++ (ds.splitOn '\n').modifyHead (last ++ ·) := by
  induction cs with
  | nil => exact ⟨[], [], rfl, by cases hsplit : ds.splitOn '\n' <;> simp [hsplit]⟩
  | cons c cs ih =>
      obtain ⟨front, last, hcs, happend⟩ := ih
      rw [List.cons_append, List.splitOn_cons_eq_if_modifyHead,
        List.splitOn_cons_eq_if_modifyHead, hcs, happend]
      split
      · exact ⟨[] :: front, last, rfl, rfl⟩
      · cases front with
        | nil => exact ⟨[], c :: last, rfl, by simp [List.modifyHead_modifyHead, Function.comp_def]⟩
        | cons line front => exact ⟨(c :: line) :: front, last, rfl, rfl⟩

theorem splitOn_append_of_not_mem {cs : List Char} (h : '\n' ∉ cs) (ds : List Char) :
    (cs ++ ds).splitOn '\n' = (ds.splitOn '\n').modifyHead (cs ++ ·) := by
  obtain ⟨front, last, hcs, happend⟩ := splitOn_seam cs ds
  rw [List.splitOn_eq_singleton h] at hcs
  obtain ⟨rfl, hlast⟩ := (List.append_eq_singleton_iff.1 hcs.symm).resolve_right (by simp)
  obtain rfl := List.singleton_inj.1 hlast
  exact happend

theorem firstLine_of_not_mem (h : '\n' ∉ a.toList) : firstLine a = a.toList := by
  rw [firstLine, List.splitOn_eq_singleton h, List.headD_cons]

theorem firstLine_append (h : '\n' ∉ a.toList) (b : String) :
    firstLine (a ++ b) = a.toList ++ firstLine b := by
  obtain ⟨first, rest, hsplit⟩ := List.exists_cons_of_ne_nil (List.splitOn_ne_nil '\n' b.toList)
  rw [firstLine, String.toList_append, splitOn_append_of_not_mem h, firstLine, hsplit]
  rfl

theorem firstLine_append_of_mem (h : '\n' ∈ a.toList) (b : String) :
    firstLine (a ++ b) = firstLine a := by
  obtain ⟨line, rest, hsplit, hline⟩ := List.eq_append_cons_of_mem h
  rw [firstLine, firstLine, String.toList_append, hsplit, List.append_assoc, List.cons_append,
    List.splitOn_append_cons_self, List.splitOn_append_cons_self, List.splitOn_eq_singleton hline]
  rfl

theorem endLinesBelow_append (h : '\n' ∉ a.toList) (b : String) :
    endLinesBelow (a ++ b) = endLinesBelow b := by
  obtain ⟨first, rest, hsplit⟩ := List.exists_cons_of_ne_nil (List.splitOn_ne_nil '\n' b.toList)
  rw [endLinesBelow, String.toList_append, splitOn_append_of_not_mem h, endLinesBelow, hsplit]
  rfl

/-- The number of lines between the first one and the last one that consist of the word `end`. -/
def endLinesInside (text : String) : Nat :=
  (text.toList.splitOn '\n').tail.dropLast.countP isEndLine

theorem endLinesInside_le_below (text : String) : endLinesInside text ≤ endLinesBelow text :=
  (List.dropLast_sublist _).countP_le

theorem endLinesInside_feed (a : String) (hb : '\n' ∉ b.toList) :
    endLinesInside (a ++ "\n" ++ b) = endLinesBelow a := by
  rw [endLinesInside, splitOn_feed, List.tail_append_of_ne_nil (List.splitOn_ne_nil _ _),
    List.splitOn_eq_singleton hb, List.dropLast_concat, endLinesBelow]

theorem endLinesInside_add_below_le (a b : String) :
    endLinesInside a + endLinesBelow b ≤ endLinesBelow (a ++ b) := by
  obtain ⟨front, last, ha, happend⟩ := splitOn_seam a.toList b.toList
  obtain ⟨first, rest, hb⟩ := List.exists_cons_of_ne_nil (List.splitOn_ne_nil '\n' b.toList)
  rw [hb, List.modifyHead_cons] at happend
  rw [endLinesInside, endLinesBelow, endLinesBelow, String.toList_append, ha, hb, happend]
  cases front with
  | nil => simp
  | cons line front =>
      rw [List.cons_append, List.cons_append, List.tail_cons, List.tail_cons, List.tail_cons,
        List.dropLast_concat, List.countP_append, List.countP_cons]
      omega

theorem endLinesInside_add_le (a b : String) :
    endLinesInside a + endLinesInside b ≤ endLinesInside (a ++ b) := by
  obtain ⟨front, last, ha, happend⟩ := splitOn_seam a.toList b.toList
  obtain ⟨first, rest, hb⟩ := List.exists_cons_of_ne_nil (List.splitOn_ne_nil '\n' b.toList)
  rw [hb, List.modifyHead_cons] at happend
  rw [endLinesInside, endLinesInside, endLinesInside, String.toList_append, ha, hb, happend]
  cases front with
  | nil => simp
  | cons line front =>
      rw [List.cons_append, List.cons_append, List.tail_cons, List.tail_cons, List.tail_cons,
        List.dropLast_concat, List.dropLast_append_cons, List.countP_append]
      have hrest : rest.dropLast.Sublist ((last ++ first) :: rest).dropLast := by
        cases rest with
        | nil => exact List.nil_sublist _
        | cons line rest => exact List.sublist_cons_self _ _
      exact Nat.add_le_add_left hrest.countP_le _

/-- What is put behind the line can keep it from being a line of `end` and can not make it one. -/
def Closes (line : List Char) : Prop :=
  ∀ x y, isEndLine (line ++ (x ++ y)) = true → isEndLine (line ++ x) = true

theorem Closes.append (h : Closes line) (more : List Char) : Closes (line ++ more) := by
  intro x y hend
  rw [List.append_assoc, ← List.append_assoc more] at hend
  rw [List.append_assoc]
  exact h _ _ hend

theorem Settled.closes (h : Settled line) : Closes line := by
  intro x y hend
  rw [h] at hend
  cases hend

theorem closes_end : Closes "end".toList := by
  have hblank : ∀ {z : List Char}, isEndLine ("end".toList ++ z) = true →
      z.all isBlank = true := by
    intro z hz
    obtain ⟨x, w, y, heq, hx, hy, -, hw⟩ := exists_of_isEndLine hz
    cases x with
    | nil =>
        have hlength : "end".toList.length = w.length := by
          simpa using (congrArg List.length hw).symm
        rw [List.nil_append] at heq
        obtain ⟨-, rfl⟩ := List.append_inj heq hlength
        exact hy
    | cons c x =>
        obtain ⟨rfl, -⟩ := List.cons.inj (heq : 'e' :: _ = c :: _)
        cases hx
  intro x y hend
  have hx := (Bool.and_eq_true_iff.1 (List.all_append.symm.trans (hblank hend))).1
  rw [isEndLine_append_right _ hx]
  decide +kernel

/-- What is put behind the text makes no line of `end` out of its last line, unless that is also
its first one. -/
def Shut (text : String) : Prop :=
  '\n' ∉ text.toList ∨
    ∃ front last, text = front ++ "\n" ++ last ∧ '\n' ∉ last.toList ∧ Closes last.toList

theorem Shut.append (ha : Shut a) (hb : Shut b) : Shut (a ++ b) := by
  rcases hb with hb | ⟨front, last, rfl, hlast, hcloses⟩
  · rcases ha with ha | ⟨front, last, rfl, hlast, hcloses⟩
    · exact .inl (by simp [ha, hb])
    · refine .inr ⟨front, last ++ b, String.append_assoc .., by simp [hlast, hb], ?_⟩
      rw [String.toList_append]
      exact hcloses.append _
  · exact .inr ⟨a ++ front, last, by simp only [String.append_assoc], hlast, hcloses⟩

theorem Shut.endLinesBelow_append_le (h : Shut a) (b : String) :
    endLinesBelow (a ++ b) ≤ endLinesBelow a + endLinesBelow b := by
  rcases h with h | ⟨front, last, rfl, hlast, hcloses⟩
  · rw [endLinesBelow_append h]
    exact Nat.le_add_left _ _
  · have hfirst : isEndLine (last.toList ++ firstLine b) = true →
        isEndLine last.toList = true := by
      intro hend
      simpa using hcloses [] (firstLine b) hend
    rw [String.append_assoc, endLinesBelow_feed, endLinesBelow_feed, endLines_eq_below (last ++ b),
      endLines_eq_below last, endLinesBelow_append hlast, endLinesBelow_of_not_mem hlast,
      firstLine_append hlast, firstLine_of_not_mem hlast]
    have hle := Bool.toNat_le_toNat hfirst
    omega

end Seams

section Indent

theorem isEndLine_chomp (line : List Char) : isEndLine (chomp line) = isEndLine line := by
  rcases List.eq_nil_or_concat' line with rfl | ⟨front, c, rfl⟩
  · rfl
  · rw [chomp_concat]
    split
    · rename_i hreturn
      rw [hreturn, isEndLine_append_right front (by decide)]
    · rfl

theorem isEndLine_indentLine (width : Nat) (line : List Char) :
    isEndLine (indentLine width line) = isEndLine line := by
  unfold indentLine
  split
  · rename_i hempty
    rw [List.isEmpty_iff.1 hempty]
  · refine isEndLine_append_left (List.all_eq_true.2 fun c hc => ?_) line
    rw [List.eq_of_mem_replicate hc]
    rfl

theorem countP_lines (cs : List Char) :
    (lines cs).countP isEndLine = (cs.splitOn '\n').countP isEndLine := by
  induction cs using lines_induction with
  | last line hline =>
      rw [lines_of_not_mem hline, List.splitOn_eq_singleton hline]
      cases line with
      | nil => simp [isEndLine_nil]
      | cons c line => rfl
  | feed line rest hline ih =>
      rw [lines_append_feed hline, List.splitOn_append_cons_self, List.splitOn_eq_singleton hline,
        List.singleton_append, List.countP_cons, List.countP_cons, ih, isEndLine_chomp]

theorem feed_not_mem_lines {cs line : List Char} (h : line ∈ lines cs) : '\n' ∉ line := by
  induction cs using lines_induction with
  | last cs hcs =>
      rw [lines_of_not_mem hcs] at h
      split at h
      · cases h
      · rwa [List.mem_singleton.1 h]
  | feed first rest hfirst ih =>
      rw [lines_append_feed hfirst] at h
      rcases List.mem_cons.1 h with rfl | h
      · exact fun hfeed => hfirst (chomp_subset first hfeed)
      · exact ih h

theorem endLines_intercalate {ls : List (List Char)} (h : ∀ line ∈ ls, '\n' ∉ line) :
    endLines ("\n".intercalate (ls.map String.ofList)) = ls.countP isEndLine := by
  cases ls with
  | nil => exact endLines_empty
  | cons line rest =>
      have hchars : ("\n".intercalate ((line :: rest).map String.ofList)).toList =
          ['\n'].intercalate (line :: rest) := by
        simp [String.toList_intercalate, Function.comp_def]
      rw [endLines, hchars, List.splitOn_intercalate '\n' h (List.cons_ne_nil line rest)]

/-- Indenting a text keeps its lines of `end`. -/
theorem endLines_indent (width : Nat) (text : String) :
    endLines (indent width text) = endLines text := by
  have hlines : (lines text.toList).map (fun line => String.ofList (indentLine width line)) =
      ((lines text.toList).map (indentLine width)).map String.ofList := by
    rw [List.map_map]
    rfl
  have hfeed : ∀ line ∈ (lines text.toList).map (indentLine width), '\n' ∉ line := by
    refine List.forall_mem_map.2 fun line hline => ?_
    unfold indentLine
    split
    · exact List.not_mem_nil
    · simp [feed_not_mem_lines hline]
  have hsame : isEndLine ∘ indentLine width = isEndLine := funext (isEndLine_indentLine width)
  rw [indent, hlines, endLines_intercalate hfeed, List.countP_map, hsame, countP_lines, endLines]

end Indent

end AgentBlocks.Text
