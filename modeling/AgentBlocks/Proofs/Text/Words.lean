import Mathlib.Data.List.Basic

/-!
Texts cut into lines and lines cut into words. Lines that are joined by line feeds, and words that
are joined by blanks, are found again one by one.
-/
namespace AgentBlocks

theorem mapM_map_eq_some_map {α β γ : Type} {write : α → β} {read : β → Option γ} {result : α → γ}
    {items : List α} (h : ∀ a ∈ items, read (write a) = some (result a)) :
    (items.map write).mapM read = some (items.map result) := by
  induction items with
  | nil => rfl
  | cons a rest ih =>
      rw [List.map_cons, List.mapM_cons, h a List.mem_cons_self,
        ih fun b hb => h b (List.mem_cons_of_mem a hb)]
      rfl

/-- What is written item by item is read item by item. -/
theorem mapM_map_eq_some {α β : Type} {write : α → β} {read : β → Option α} {items : List α}
    (h : ∀ a ∈ items, read (write a) = some a) : (items.map write).mapM read = some items := by
  rw [mapM_map_eq_some_map h, List.map_id']

namespace Text

/-- The lines of a text that are not empty. -/
def filledLines (s : String) : List String :=
  ((s.toList.splitOn '\n').filter (!·.isEmpty)).map String.ofList

/-- The words of a line, each ended by a single blank or by the end of the line. -/
def words (line : String) : List String := (line.toList.splitOn ' ').map String.ofList

theorem filledLines_append (s t : String) :
    filledLines (s ++ "\n" ++ t) = filledLines s ++ filledLines t := by
  have hfeed : (s ++ "\n" ++ t).toList = s.toList ++ '\n' :: t.toList := by
    simp [String.toList_append]
  simp only [filledLines, hfeed, List.splitOn_append_cons_self, List.filter_append,
    List.map_append]

theorem filledLines_empty : filledLines "" = [] := by
  simp [filledLines]

theorem filledLines_of_not_mem {s : String} (hfeed : '\n' ∉ s.toList) (hne : s ≠ "") :
    filledLines s = [s] := by
  simp [filledLines, List.splitOn_eq_singleton hfeed, hne]

theorem filledLines_intercalate_feed (ss : List String) :
    filledLines ("\n".intercalate ss) = ss.flatMap filledLines := by
  induction ss with
  | nil => exact filledLines_empty
  | cons s rest ih =>
      cases rest with
      | nil => simp
      | cons t rest =>
          rw [String.intercalate_cons_cons, filledLines_append, ih]
          rfl

/-- A blank line between two sections adds no line. -/
theorem filledLines_intercalate_blankLine (ss : List String) :
    filledLines ("\n\n".intercalate ss) = ss.flatMap filledLines := by
  induction ss with
  | nil => exact filledLines_empty
  | cons s rest ih =>
      cases rest with
      | nil => simp
      | cons t rest =>
          have hfeeds : s ++ "\n\n" ++ "\n\n".intercalate (t :: rest) =
              s ++ "\n" ++ "" ++ "\n" ++ "\n\n".intercalate (t :: rest) := by
            simp [← String.toList_inj]
          rw [String.intercalate_cons_cons, hfeeds, filledLines_append, filledLines_append,
            filledLines_empty, ih, List.append_nil]
          rfl

theorem not_mem_intercalate {c : Char} {separator : String} {ss : List String}
    (hseparator : c ∉ separator.toList) (h : ∀ s ∈ ss, c ∉ s.toList) :
    c ∉ (separator.intercalate ss).toList := by
  induction ss with
  | nil => simp
  | cons s rest ih =>
      have hrest := ih fun t ht => h t (List.mem_cons_of_mem s ht)
      have hs := h s List.mem_cons_self
      cases rest with
      | nil => simpa using hs
      | cons t rest =>
          rw [String.intercalate_cons_cons, String.toList_append, String.toList_append,
            List.mem_append, List.mem_append]
          rintro ((hc | hc) | hc)
          · exact hs hc
          · exact hseparator hc
          · exact hrest hc

theorem words_intercalate {ws : List String} (hne : ws ≠ []) (hblank : ∀ w ∈ ws, ' ' ∉ w.toList) :
    words (" ".intercalate ws) = ws := by
  have hsplit : (" ".intercalate ws).toList.splitOn ' ' = ws.map String.toList := by
    rw [String.toList_intercalate]
    refine List.splitOn_intercalate ' ' (fun cs hcs => ?_) (by simpa using hne)
    obtain ⟨w, hw, rfl⟩ := List.mem_map.1 hcs
    exact hblank w hw
  rw [words, hsplit, List.map_map]
  simp [Function.comp_def]

end Text

end AgentBlocks
