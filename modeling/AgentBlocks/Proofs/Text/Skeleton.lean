import AgentBlocks.Proofs.Text.Inline

/-!
Skeletons of texts: the line feeds and the square brackets outside of text literals. Texts with one
skeleton have the same brackets and equally many lines, and they keep one skeleton when they are
joined, indented and put into brackets.
-/
namespace AgentBlocks.Text

/-- Where a reader is after a character. -/
def Quoting.after (q : Quoting) (c : Char) : Quoting :=
  match q with
  | .outside => if c = '"' then .inside else .outside
  | .inside => if c = '"' then .outside else if c = '\\' then .escaped else .inside
  | .escaped => .inside

/-- The characters outside of text literals. -/
def unquoted : Quoting → List Char → List Char
  | _, [] => []
  | q, c :: cs =>
    if q = .outside ∧ c ≠ '"' then c :: unquoted (q.after c) cs else unquoted (q.after c) cs

def isSquareBracket (c : Char) : Bool := c == '[' || c == ']'

/-- The square brackets outside of text literals. -/
def squareBrackets (s : String) : List Char := (unquoted .outside s.toList).filter isSquareBracket

example : squareBrackets "ask turtles [ show \"]\" ]" = ['[', ']'] := by decide

def isMark (c : Char) : Bool := c == '\n' || isSquareBracket c

/-- The marks outside of text literals and where a reader is in the end. A literal has to be closed
on its line. -/
def skim : Quoting → List Char → Option (List Char × Quoting)
  | q, [] => some ([], q)
  | q, c :: cs =>
    if q = .outside then
      (skim (q.after c) cs).map fun found =>
        (if isMark c then c :: found.1 else found.1, found.2)
    else if c = '\n' then none
    else skim (q.after c) cs

section Skim

variable {q q' : Quoting} {c : Char} {cs ds ms : List Char}

theorem skim_outside (hquote : c ≠ '"') : skim .outside (c :: cs) =
    (skim .outside cs).map fun found => (if isMark c then c :: found.1 else found.1, found.2) := by
  simp [skim, Quoting.after, hquote]

theorem skim_append : skim q (cs ++ ds) = (skim q cs).bind fun found =>
    (skim found.2 ds).map fun found' => (found.1 ++ found'.1, found'.2) := by
  induction cs generalizing q with
  | nil => simp [skim]
  | cons c cs ih =>
      rw [List.cons_append, skim, skim, ih]
      split
      · cases skim (q.after c) cs with
        | none => rfl
        | some found =>
            simp only [Option.bind_some, Option.map_some, Option.map_map]
            congr 1
            funext found'
            simp only [Function.comp_apply]
            split <;> rfl
      · split <;> rfl

theorem filter_unquoted (h : skim q cs = some (ms, q')) :
    (unquoted q cs).filter isSquareBracket = ms.filter isSquareBracket := by
  induction cs generalizing q ms with
  | nil =>
      cases h
      rfl
  | cons c cs ih =>
      rw [skim] at h
      rw [unquoted]
      split at h
      · rename_i hq
        obtain ⟨⟨ns, q₁⟩, hrest, hfound⟩ := Option.map_eq_some_iff.1 h
        obtain ⟨rfl, rfl⟩ := Prod.mk.inj hfound
        have hns := ih hrest
        -- a quote is no mark, and neither is what is no bracket and no line feed
        by_cases hquote : c = '"'
        · subst hquote
          rw [if_neg (by simp), hns]
          rfl
        · have hmark : List.filter isSquareBracket (if isMark c then c :: ns else ns) =
              if isSquareBracket c then c :: ns.filter isSquareBracket
              else ns.filter isSquareBracket := by
            unfold isMark
            by_cases hbracket : isSquareBracket c = true
            · simp [hbracket]
            · by_cases hfeed : (c == '\n') = true <;> simp [hbracket, hfeed]
          rw [if_pos ⟨hq, hquote⟩, List.filter_cons, hns, hmark]
      · rename_i hq
        split at h
        · cases h
        · rw [if_neg fun hout => hq hout.1]
          exact ih h

theorem count_feed (h : skim q cs = some (ms, q')) : cs.count '\n' = ms.count '\n' := by
  induction cs generalizing q ms with
  | nil =>
      cases h
      rfl
  | cons c cs ih =>
      rw [skim] at h
      split at h
      · obtain ⟨⟨ns, q₁⟩, hrest, hfound⟩ := Option.map_eq_some_iff.1 h
        obtain ⟨rfl, rfl⟩ := Prod.mk.inj hfound
        rw [List.count_cons, ih hrest]
        by_cases hfeed : c = '\n'
        · simp [isMark, hfeed]
        · by_cases hmark : isMark c = true <;> simp [hmark, hfeed]
      · split at h
        · cases h
        · rename_i hfeed
          rw [List.count_cons, ih h]
          simp [hfeed]

/-- What reads on across nestings also skims. -/
theorem exists_skim {n n' : Nesting} (h : cs.foldlM Nesting.step n = some n') :
    ∃ ms, skim n.quoting cs = some (ms, n'.quoting) := by
  induction cs generalizing n with
  | nil =>
      cases h
      exact ⟨[], rfl⟩
  | cons c cs ih =>
      rw [List.foldlM_cons] at h
      obtain ⟨n₁, hstep, hrest⟩ := Option.bind_eq_some_iff.1 h
      obtain ⟨ms, hms⟩ := ih hrest
      obtain ⟨awaited, quoting⟩ := n
      have hafter : n₁.quoting = quoting.after c ∧ (quoting ≠ .outside → c ≠ '\n') := by
        cases quoting <;> simp only [Nesting.step] at hstep <;> split_ifs at hstep
        · cases hstep
          simp_all [Quoting.after]
        · obtain ⟨awaited', -, rfl⟩ := Option.map_eq_some_iff.1 hstep
          simp_all [Quoting.after]
        all_goals
          cases hstep
          simp_all [Quoting.after]
      rw [hafter.1] at hms
      rw [skim, hms]
      by_cases hq : quoting = .outside
      · exact ⟨_, by rw [if_pos hq, Option.map_some]⟩
      · exact ⟨ms, by rw [if_neg hq, if_neg (hafter.2 hq)]⟩

theorem skim_blanks (n : Nat) (cs : List Char) :
    skim .outside (List.replicate n ' ' ++ cs) = skim .outside cs := by
  induction n with
  | zero => rfl
  | succ n ih =>
      have hmark : isMark ' ' = false := by decide
      rw [List.replicate_succ, List.cons_append, skim_outside (by decide), ih]
      simp [hmark]

theorem skim_chomp (h : skim .outside cs = some (ms, .outside)) :
    skim .outside (chomp cs) = some (ms, .outside) := by
  rcases List.eq_nil_or_concat' cs with rfl | ⟨front, c, rfl⟩
  · exact h
  · rw [chomp_concat]
    split
    · rename_i hreturn
      subst hreturn
      rw [skim_append] at h
      obtain ⟨⟨ms₁, q₁⟩, hfront, hlast⟩ := Option.bind_eq_some_iff.1 h
      have hmark : isMark '\r' = false := by decide
      -- inside of a literal the carriage return would not have ended it
      cases q₁ <;> simp [skim, Quoting.after, hmark] at hlast
      rwa [hlast] at hfront
    · exact h

theorem skim_feed (h : skim .outside (cs ++ '\n' :: ds) = some (ms, .outside)) :
    ∃ ms₁ ms₂, skim .outside cs = some (ms₁, .outside) ∧
      skim .outside ds = some (ms₂, .outside) ∧ ms = ms₁ ++ '\n' :: ms₂ := by
  rw [skim_append] at h
  obtain ⟨⟨ms₁, q₁⟩, hcs, hrest⟩ := Option.bind_eq_some_iff.1 h
  obtain ⟨⟨ns, q₂⟩, hfeed, hfound⟩ := Option.map_eq_some_iff.1 hrest
  obtain ⟨rfl, rfl⟩ := Prod.mk.inj hfound
  cases q₁ with
  | outside =>
      rw [skim_outside (by decide)] at hfeed
      obtain ⟨⟨ms₂, q₂⟩, hds, hfound⟩ := Option.map_eq_some_iff.1 hfeed
      obtain ⟨rfl, rfl⟩ := Prod.mk.inj hfound
      exact ⟨ms₁, ms₂, hcs, hds, rfl⟩
  | inside => cases hfeed
  | escaped => cases hfeed

end Skim

section Indent

variable {line rest cs ms : List Char} (width : Nat)

theorem skim_indentLine (line : List Char) :
    skim .outside (indentLine width line) = skim .outside line := by
  unfold indentLine
  split
  · rename_i hempty
    rw [List.isEmpty_iff.1 hempty]
  · exact skim_blanks width line

theorem getLast?_indentLine (line : List Char) :
    (indentLine width line).getLast? = line.getLast? := by
  unfold indentLine
  split
  · rename_i hempty
    rw [List.isEmpty_iff.1 hempty]
  · rename_i hne
    rw [List.getLast?_append_of_ne_nil _ (by simpa using hne)]

/-- The characters of a text after indentation. -/
def indentChars (cs : List Char) : List Char :=
  ['\n'].intercalate ((lines cs).map (indentLine width))

theorem toList_indent (s : String) : (indent width s).toList = indentChars width s.toList := by
  rw [indent, String.toList_intercalate, List.map_map, indentChars]
  congr 1
  exact List.map_congr_left fun line _ => String.toList_ofList

theorem indentChars_of_not_mem (hline : '\n' ∉ line) :
    indentChars width line = indentLine width line := by
  rw [indentChars, lines_of_not_mem hline]
  split
  · rename_i hempty
    rw [List.isEmpty_iff.1 hempty]
    rfl
  · simp

theorem indentChars_append_feed (hline : '\n' ∉ line) (hrest : rest ≠ []) :
    indentChars width (line ++ '\n' :: rest) =
      indentLine width (chomp line) ++ '\n' :: indentChars width rest := by
  obtain ⟨first, others, hlines⟩ : ∃ first others, lines rest = first :: others :=
    List.exists_cons_of_ne_nil (mt lines_eq_nil_iff.1 hrest)
  rw [indentChars, lines_append_feed hline, indentChars, hlines]
  simp [List.intercalate_cons_cons]

/-- Blanks before the lines leave the marks and the end of the text as they are. -/
theorem skim_indentChars (h : skim .outside cs = some (ms, .outside))
    (hlast : cs.getLast? ≠ some '\n') :
    skim .outside (indentChars width cs) = some (ms, .outside) ∧
      (indentChars width cs).getLast? = cs.getLast? := by
  induction cs using lines_induction generalizing ms with
  | last line hline =>
      rw [indentChars_of_not_mem width hline, skim_indentLine, getLast?_indentLine]
      exact ⟨h, rfl⟩
  | feed line rest hline ih =>
      have hne : rest ≠ [] := by
        rintro rfl
        simp at hlast
      obtain ⟨c, hc⟩ := Option.ne_none_iff_exists'.1 (mt List.getLast?_eq_none_iff.1 hne)
      have hend : ∀ before ds : List Char, ds.getLast? = some c →
          (before ++ '\n' :: ds).getLast? = some c := by
        intro before ds hds
        simp [List.getLast?_append, List.getLast?_cons, hds]
      obtain ⟨ms₁, ms₂, hfirst, hothers, rfl⟩ := skim_feed h
      obtain ⟨hskim, hsame⟩ := ih hothers (by rwa [hend line rest hc, ← hc] at hlast)
      rw [indentChars_append_feed width hline hne]
      refine ⟨?_, (hend _ _ (hsame.trans hc)).trans (hend _ _ hc).symm⟩
      have hmark : isMark '\n' = true := by decide
      rw [skim_append, skim_indentLine, skim_chomp hfirst, Option.bind_some,
        skim_outside (by decide), hskim]
      simp [hmark]

end Indent

theorem intercalate_ne_empty {code : String} (hne : code ≠ "") (separator : String)
    (rest : List String) : separator.intercalate (code :: rest) ≠ "" := by
  cases rest with
  | nil => simpa using hne
  | cons next rest => simp [String.intercalate_cons_cons, hne]

/-- Text with closed literals and the given marks, which does not end in a line feed. -/
structure Sketch (s : String) (ms : List Char) : Prop where
  skim : skim .outside s.toList = some (ms, .outside)
  last : s.toList.getLast? ≠ some '\n'

namespace Sketch

variable {a b : String} {ms ns : List Char}

theorem empty : Sketch "" [] := ⟨rfl, nofun⟩

theorem append (ha : Sketch a ms) (hb : Sketch b ns) : Sketch (a ++ b) (ms ++ ns) where
  skim := by
    rw [String.toList_append, skim_append, ha.skim, Option.bind_some, hb.skim]
    rfl
  last := by
    rw [String.toList_append, List.getLast?_append]
    cases hlast : b.toList.getLast? with
    | none => exact ha.last
    | some c =>
        rw [Option.some_or, ← hlast]
        exact hb.last

/-- The text in front may end in a line feed when another one follows. -/
theorem prepend {before : String}
    (hbefore : Text.skim .outside before.toList = some (ms, .outside)) (ha : Sketch a ns)
    (hne : a ≠ "") : Sketch (before ++ a) (ms ++ ns) where
  skim := by
    rw [String.toList_append, skim_append, hbefore, Option.bind_some, ha.skim]
    rfl
  last := by
    have hchars : a.toList ≠ [] := mt String.toList_eq_nil_iff.1 hne
    rw [String.toList_append, List.getLast?_append_of_ne_nil _ hchars]
    exact ha.last

theorem enclose (ha : Sketch a ms) (bound : Bound) (p : Precedence) :
    Sketch (bound.enclose a p) ms := by
  unfold Bound.enclose
  split
  · have hopen : Sketch "(" [] := ⟨rfl, by decide⟩
    have hclose : Sketch ")" [] := ⟨rfl, by decide⟩
    simpa using (hopen.append ha).append hclose
  · exact ha

theorem indent (ha : Sketch a ms) (width : Nat) : Sketch (indent width a) ms := by
  obtain ⟨hskim, hlast⟩ := skim_indentChars width ha.skim ha.last
  refine ⟨?_, ?_⟩
  · rwa [toList_indent]
  · rw [toList_indent, hlast]
    exact ha.last

theorem indent_ne_empty (ha : Sketch a ms) (hne : a ≠ "") (width : Nat) :
    Text.indent width a ≠ "" := by
  intro hempty
  have hlast := (skim_indentChars width ha.skim ha.last).2
  rw [← toList_indent, hempty] at hlast
  exact hne (String.toList_eq_nil_iff.1 (List.getLast?_eq_none_iff.1 hlast.symm))

/-- Texts that are not empty, joined by a separator. -/
theorem intercalate {codes : List String} {sketches : List (List Char)} {separator : String}
    (h : List.Forall₂ Sketch codes sketches) (hne : ∀ code ∈ codes, code ≠ "")
    (hseparator : Text.skim .outside separator.toList = some (ns, .outside)) :
    Sketch (separator.intercalate codes) (ns.intercalate sketches) := by
  induction h with
  | nil => exact empty
  | @cons code sketch codes sketches hcode hcodes ih =>
      obtain ⟨-, hrest⟩ := List.forall_mem_cons.1 hne
      cases hcodes with
      | nil => simpa using hcode
      | @cons next sketch' rest sketches' hnext hcodes =>
          have hjoined := intercalate_ne_empty (List.forall_mem_cons.1 hrest).1 separator rest
          rw [String.intercalate_cons_cons, List.intercalate_cons_cons, String.append_assoc,
            List.append_assoc]
          exact hcode.append (prepend hseparator (ih hrest) hjoined)

theorem squareBrackets_eq (ha : Sketch a ms) : squareBrackets a = ms.filter isSquareBracket :=
  filter_unquoted ha.skim

theorem length_lines_eq (ha : Sketch a ms) (hne : a ≠ "") :
    (lines a.toList).length = ms.count '\n' + 1 := by
  have hany : a.toList.getLast?.any (· != '\n') = true := by
    have hlast := ha.last
    cases h : a.toList.getLast? with
    | none => exact absurd (String.toList_eq_nil_iff.1 (List.getLast?_eq_none_iff.1 h)) hne
    | some c => simpa [h] using hlast
  rw [length_lines, count_feed ha.skim, hany, Bool.toNat_true]

end Sketch

/-- Outside of literals the text has no line feed and no square bracket, and each literal in it is
closed on its line. -/
def Inert (s : String) : Prop := skim .outside s.toList = some ([], .outside)

instance (s : String) : Decidable (Inert s) := inferInstanceAs (Decidable (_ = _))

variable {a b : String}

theorem Inert.sketch (h : Inert a) : Sketch a [] where
  skim := h
  last := by
    intro hlast
    have hcount : a.toList.count '\n' = 0 := count_feed h
    exact List.count_eq_zero.1 hcount (List.mem_of_getLast? hlast)

theorem Tidy.exists_sketch (h : Tidy a) : ∃ ms, Sketch a ms := by
  obtain ⟨ms, hms⟩ := exists_skim (Reading.nesting_of_run h)
  refine ⟨ms, hms, fun hlast => ?_⟩
  obtain ⟨front, hfront⟩ := List.getLast?_eq_some_iff.1 hlast
  rw [Tidy, hfront, Reading.run_append] at h
  obtain ⟨r, -, hfeed⟩ := Option.bind_eq_some_iff.1 h
  obtain ⟨r', hstep, hr'⟩ := Option.bind_eq_some_iff.1 (Reading.run_cons ▸ hfeed)
  cases hr'
  exact Bool.false_ne_true (congrArg Reading.filled (Reading.quoting_of_feed hstep).2.2).symm

/-- Texts with one skeleton. -/
structure Alike (a b : String) : Prop where
  left : a ≠ ""
  right : b ≠ ""
  sketch : ∃ ms, Sketch a ms ∧ Sketch b ms

/-- Inert text that is not empty. -/
structure Plain (s : String) : Prop where
  filled : s ≠ ""
  inert : Inert s

instance (s : String) : Decidable (Plain s) :=
  decidable_of_iff (s ≠ "" ∧ Inert s) ⟨fun ⟨filled, inert⟩ => ⟨filled, inert⟩, fun h =>
    ⟨h.filled, h.inert⟩⟩

theorem Plain.append (ha : Plain a) (hb : Plain b) : Plain (a ++ b) :=
  ⟨by simp [ha.filled], (ha.inert.sketch.append hb.inert.sketch).skim⟩

theorem Plain.alike (ha : Plain a) (hb : Plain b) : Alike a b :=
  ⟨ha.filled, hb.filled, [], ha.inert.sketch, hb.inert.sketch⟩

/-- The literals of the text are closed, and something stands behind its last line feed. -/
def closesLiterals (s : String) : Bool :=
  (skim .outside s.toList).any (·.2 == .outside) && s.toList.getLast?.any (· != '\n')

theorem alike_self (h : closesLiterals a = true) : Alike a a := by
  obtain ⟨hskim, hlast⟩ := Bool.and_eq_true_iff.1 h
  obtain ⟨⟨ms, q⟩, hms, hq⟩ := (Option.any_eq_true _ _).1 hskim
  cases eq_of_beq hq
  obtain ⟨c, hc, hfeed⟩ := (Option.any_eq_true _ _).1 hlast
  have hsketch : Sketch a ms := by
    refine ⟨hms, ?_⟩
    simpa [hc] using hfeed
  have hne : a ≠ "" := by
    rintro rfl
    cases hc
  exact ⟨hne, hne, ms, hsketch, hsketch⟩

theorem Alike.intercalate {as bs : List String} (h : List.Forall₂ Alike as bs) (hne : as ≠ [])
    {separator : String} {ns : List Char}
    (hseparator : skim .outside separator.toList = some (ns, .outside)) :
    Alike (separator.intercalate as) (separator.intercalate bs) := by
  have hsketches : (∀ a ∈ as, a ≠ "") ∧ (∀ b ∈ bs, b ≠ "") ∧ ∃ sketches,
      List.Forall₂ Sketch as sketches ∧ List.Forall₂ Sketch bs sketches := by
    clear hne
    induction h with
    | nil => exact ⟨nofun, nofun, [], .nil, .nil⟩
    | cons hab _ ih =>
        obtain ⟨hleft, hright, sketches, has, hbs⟩ := ih
        obtain ⟨ms, ha, hb⟩ := hab.sketch
        exact ⟨List.forall_mem_cons.2 ⟨hab.left, hleft⟩,
          List.forall_mem_cons.2 ⟨hab.right, hright⟩, ms :: sketches, .cons ha has, .cons hb hbs⟩
  obtain ⟨hleft, hright, sketches, has, hbs⟩ := hsketches
  refine ⟨?_, ?_, ns.intercalate sketches, .intercalate has hleft hseparator,
    .intercalate hbs hright hseparator⟩
  · cases h with
    | nil => exact absurd rfl hne
    | cons hab _ => exact intercalate_ne_empty hab.left separator _
  · cases h with
    | nil => exact absurd rfl hne
    | cons hab _ => exact intercalate_ne_empty hab.right separator _

theorem Alike.indent (h : Alike a b) (width : Nat) :
    Alike (indent width a) (indent width b) := by
  obtain ⟨ms, ha, hb⟩ := h.sketch
  exact ⟨ha.indent_ne_empty h.left width, hb.indent_ne_empty h.right width, ms, ha.indent width,
    hb.indent width⟩

theorem Alike.layout_eq (h : Alike a b) : (lines a.toList).length = (lines b.toList).length ∧
    squareBrackets a = squareBrackets b := by
  obtain ⟨ms, ha, hb⟩ := h.sketch
  rw [ha.length_lines_eq h.left, hb.length_lines_eq h.right, ha.squareBrackets_eq,
    hb.squareBrackets_eq]
  exact ⟨rfl, rfl⟩

/-- Sections with blank lines in between. -/
theorem layout_eq_sections {as bs : List String} (h : List.Forall₂ Alike as bs) :
    (lines ("\n\n".intercalate as).toList).length =
        (lines ("\n\n".intercalate bs).toList).length ∧
      squareBrackets ("\n\n".intercalate as) = squareBrackets ("\n\n".intercalate bs) := by
  rcases eq_or_ne as [] with rfl | hne
  · cases h
    exact ⟨rfl, rfl⟩
  · exact (Alike.intercalate h hne rfl).layout_eq

theorem skim_literal (cs rest : List Char) :
    skim .inside (cs.flatMap literalChar ++ rest) = skim .inside rest := by
  induction cs with
  | nil => rfl
  | cons c cs ih =>
      rw [List.flatMap_cons, List.append_assoc, ← ih]
      generalize cs.flatMap literalChar ++ rest = rest
      unfold literalChar
      split
      · rfl
      · rfl
      · rfl
      · rename_i hslash hquote hfeed
        have hc : c ≠ '\\' ∧ c ≠ '"' ∧ c ≠ '\n' := ⟨hslash, hquote, hfeed⟩
        simp [skim, Quoting.after, hc]

end AgentBlocks.Text

namespace AgentBlocks

open Text

theorem Lexeme.plain {s : String} (h : Lexeme s) : Plain s := by
  cases h with
  | word hne hs =>
      have hchar : ∀ c, Scan.isWordChar c = true → c ≠ '"' ∧ isMark c = false := by
        intro c hc
        simp only [Scan.isWordChar, Scan.isBracket, Bool.not_eq_true', Bool.or_eq_false_iff,
          beq_eq_false_iff_ne] at hc
        refine ⟨hc.2, ?_⟩
        simp only [isMark, isSquareBracket, Bool.or_eq_false_iff, beq_eq_false_iff_ne]
        refine ⟨?_, hc.1.2.1.2, hc.1.2.2⟩
        rintro rfl
        exact absurd hc.1.1 (by decide)
      refine ⟨hne, ?_⟩
      rw [Inert]
      generalize s.toList = cs at hs
      induction cs with
      | nil => rfl
      | cons c cs ih =>
          obtain ⟨hc, hcs⟩ := Bool.and_eq_true_iff.1 hs
          rw [skim_outside (hchar c hc).1, ih hcs, Option.map_some, (hchar c hc).2]
          rfl
  | literal s =>
      have hchars : (Text.literal s).toList = '"' :: (s.toList.flatMap literalChar ++ ['"']) := by
        rw [Text.literal, String.toList_ofList, List.cons_append]
      have hmark : isMark '"' = false := by decide
      refine ⟨by simp [Text.literal], ?_⟩
      rw [Inert, hchars, skim, if_pos rfl, show Quoting.after .outside '"' = .inside from rfl,
        skim_literal]
      rfl

end AgentBlocks
