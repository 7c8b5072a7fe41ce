import AgentBlocks.Proofs.Text.Lines
import AgentBlocks.Text.Blank

/-!
Brackets and text literals of a program, read from left to right. Code is tidy when it closes what
it opens and something stands on each of its lines; a program of tidy sections is well bracketed.
-/
namespace AgentBlocks.Text

/-- Where a reader is with regard to text literals. -/
inductive Quoting where
  | outside
  | inside
  | escaped
deriving DecidableEq

/-- What a reader waits for: the brackets that close the open ones, innermost first, and the end of
a literal. -/
structure Nesting where
  awaited : List Char
  quoting : Quoting
deriving DecidableEq

namespace Nesting

def start : Nesting := ⟨[], .outside⟩

/-- The brackets that are awaited after a character. A closing bracket has to be the innermost one
that is awaited. -/
def bracket (awaited : List Char) (c : Char) : Option (List Char) :=
  if c = '[' then some (']' :: awaited)
  else if c = '(' then some (')' :: awaited)
  else if c = ']' ∨ c = ')' then
    if awaited.head? = some c then some awaited.tail else none
  else some awaited

/-- Reads a character. A literal has to be closed on its line. -/
def step (n : Nesting) (c : Char) : Option Nesting :=
  match n.quoting with
  | .outside =>
    if c = '"' then some ⟨n.awaited, .inside⟩
    else (bracket n.awaited c).map (⟨·, .outside⟩)
  | .inside =>
    if c = '\n' then none
    else if c = '"' then some ⟨n.awaited, .outside⟩
    else if c = '\\' then some ⟨n.awaited, .escaped⟩
    else some n
  | .escaped => if c = '\n' then none else some ⟨n.awaited, .inside⟩

end Nesting

/-- Outside of literals the brackets and parentheses of the text are balanced and properly nested,
and each literal ends on the line on which it begins. -/
def wellBracketed (s : String) : Bool := s.toList.foldlM Nesting.step .start == some .start

/-- A reader that also keeps whether something stands on the line already. -/
structure Reading where
  nesting : Nesting
  filled : Bool
deriving DecidableEq

namespace Reading

def start : Reading := ⟨.start, false⟩

/-- Reads a character. Before a line feed something has to stand on the line, and a carriage return
may stand in a literal only. -/
def step (r : Reading) (c : Char) : Option Reading :=
  if (c = '\n' ∧ r.filled = false) ∨ (c = '\r' ∧ r.nesting.quoting = .outside) then none
  else (r.nesting.step c).map (⟨·, c != '\n' && (!isBlank c || r.filled)⟩)

def run (r : Reading) (cs : List Char) : Option Reading := cs.foldlM step r

/-- The same reading of a text inside of brackets, on a line that may have been filled. -/
def within (awaited : List Char) (filled : Bool) (r : Reading) : Reading :=
  ⟨⟨r.nesting.awaited ++ awaited, r.nesting.quoting⟩, r.filled || filled⟩

variable {r r' : Reading} {cs cs' : List Char} {c : Char}

theorem run_append : r.run (cs ++ cs') = (r.run cs).bind (·.run cs') := by
  simp [run, List.foldlM_append]

theorem run_cons : r.run (c :: cs) = (r.step c).bind (·.run cs) := rfl

end Reading

namespace Nesting

variable {c : Char}

theorem bracket_append {before after : List Char} (h : bracket before c = some after)
    (awaited : List Char) : bracket (before ++ awaited) c = some (after ++ awaited) := by
  unfold bracket at h ⊢
  split_ifs at h ⊢ with h₁ h₂ h₃ h₄ h₅ h₅
  · cases h
    rfl
  · cases h
    rfl
  · cases h
    obtain ⟨rest, rfl⟩ := List.head?_eq_some_iff.1 h₅
    rfl
  · obtain ⟨rest, rfl⟩ := List.head?_eq_some_iff.1 h₅
    exact absurd rfl h₄
  · cases h
    rfl

theorem step_append {n n' : Nesting} (h : n.step c = some n') (awaited : List Char) :
    step ⟨n.awaited ++ awaited, n.quoting⟩ c = some ⟨n'.awaited ++ awaited, n'.quoting⟩ := by
  obtain ⟨before, quoting⟩ := n
  cases quoting with
  | outside =>
      simp only [step] at h ⊢
      split_ifs at h ⊢
      · cases h
        rfl
      · obtain ⟨after, hafter, rfl⟩ := Option.map_eq_some_iff.1 h
        rw [bracket_append hafter, Option.map_some]
  | inside =>
      simp only [step] at h ⊢
      split_ifs at h ⊢ <;> cases h <;> rfl
  | escaped =>
      simp only [step] at h ⊢
      split_ifs at h ⊢
      cases h
      rfl

end Nesting

namespace Reading

variable {r r' : Reading} {cs cs' : List Char} {c : Char}

theorem step_within (h : r.step c = some r') (awaited : List Char) (filled : Bool) :
    ∃ filled', (r.within awaited filled).step c = some (r'.within awaited filled') := by
  unfold step at h
  split_ifs at h with hstop
  obtain ⟨n, hn, rfl⟩ := Option.map_eq_some_iff.1 h
  have hgo : ¬((c = '\n' ∧ (r.within awaited filled).filled = false) ∨
      (c = '\r' ∧ (r.within awaited filled).nesting.quoting = .outside)) := by
    refine mt (Or.imp_left fun ⟨hc, hfilled⟩ => ⟨hc, ?_⟩) hstop
    exact (Bool.or_eq_false_iff.1 hfilled).1
  refine ⟨c != '\n' && filled, ?_⟩
  rw [step, if_neg hgo]
  simp only [within, Nesting.step_append hn, Option.map_some, ← Bool.or_assoc,
    Bool.and_or_distrib_left]

theorem run_within (h : r.run cs = some r') (awaited : List Char) (filled : Bool) :
    ∃ filled', (r.within awaited filled).run cs = some (r'.within awaited filled') := by
  induction cs generalizing r filled with
  | nil =>
      cases h
      exact ⟨filled, rfl⟩
  | cons c cs ih =>
      rw [run_cons] at h
      obtain ⟨r₁, hstep, hrun⟩ := Option.bind_eq_some_iff.1 h
      obtain ⟨filled₁, hstep'⟩ := step_within hstep awaited filled
      obtain ⟨filled', hrun'⟩ := ih hrun filled₁
      exact ⟨filled', by rw [run_cons, hstep', Option.bind_some, hrun']⟩

theorem quoting_of_feed (h : r.step '\n' = some r') :
    r.filled = true ∧ r.nesting.quoting = .outside ∧ r' = ⟨r.nesting, false⟩ := by
  unfold step at h
  split_ifs at h with hstop
  obtain ⟨n, hn, rfl⟩ := Option.map_eq_some_iff.1 h
  obtain ⟨⟨awaited, quoting⟩, filled⟩ := r
  cases quoting with
  | outside =>
      cases hn
      simpa using hstop
  | inside => cases hn
  | escaped => cases hn

theorem filled_of_run (h : r.run cs = some r') (hfilled : r'.filled = true) :
    r.filled = true ∨ ∃ c ∈ cs, isBlank c = false := by
  induction cs generalizing r with
  | nil =>
      cases h
      exact .inl hfilled
  | cons c cs ih =>
      rw [run_cons] at h
      obtain ⟨r₁, hstep, hrun⟩ := Option.bind_eq_some_iff.1 h
      rcases ih hrun with hfilled₁ | ⟨c', hc', hblank⟩
      · unfold step at hstep
        split_ifs at hstep
        obtain ⟨n, -, rfl⟩ := Option.map_eq_some_iff.1 hstep
        rcases Bool.or_eq_true_iff.1 (Bool.and_eq_true_iff.1 hfilled₁).2 with hblank | hfilled
        · exact .inr ⟨c, List.mem_cons_self, by simpa using hblank⟩
        · exact .inl hfilled
      · exact .inr ⟨c', List.mem_cons_of_mem c hc', hblank⟩

/-- A carriage return can only be read inside of a literal. -/
theorem quoting_of_return (h : r.step '\r' = some r') : r'.nesting.quoting ≠ .outside := by
  unfold step at h
  split_ifs at h with hstop
  obtain ⟨n, hn, rfl⟩ := Option.map_eq_some_iff.1 h
  obtain ⟨⟨awaited, quoting⟩, filled⟩ := r
  cases quoting with
  | outside => exact absurd (.inr ⟨rfl, rfl⟩) hstop
  | inside =>
      cases hn
      exact nofun
  | escaped =>
      cases hn
      exact nofun

/-- Outside of literals blanks change nothing. -/
theorem run_blanks (n : Nat) (h : r.nesting.quoting = .outside) :
    r.run (List.replicate n ' ') = some r := by
  obtain ⟨⟨awaited, quoting⟩, filled⟩ := r
  cases h
  induction n with
  | zero => rfl
  | succ n ih => exact ih

end Reading

/-- A line on which something stands, and no carriage return at its end. -/
structure Solid (line : List Char) : Prop where
  feed : '\n' ∉ line
  filled : ∃ c ∈ line, isBlank c = false
  chomp_eq : chomp line = line

namespace Reading

variable {r r' : Reading} {line : List Char} {ls : List (List Char)}

theorem solid_of_run (hfeed : '\n' ∉ line) (hr : r.filled = false) (h : r.run line = some r')
    (hr' : r'.filled = true) (hquoting : r'.nesting.quoting = .outside) : Solid line := by
  refine ⟨hfeed, ?_, ?_⟩
  · rcases filled_of_run h hr' with hfilled | hfilled
    · cases hr.symm.trans hfilled
    · exact hfilled
  · rcases List.eq_nil_or_concat' line with rfl | ⟨front, c, rfl⟩
    · rfl
    · rw [chomp_concat, if_neg]
      rintro rfl
      rw [run_append] at h
      obtain ⟨r₁, -, hlast⟩ := Option.bind_eq_some_iff.1 h
      rw [run_cons] at hlast
      obtain ⟨r₂, hstep, hnil⟩ := Option.bind_eq_some_iff.1 hlast
      cases hnil
      exact quoting_of_return hstep hquoting

theorem solid_of_run_lines (hne : ls ≠ []) (hfeed : ∀ line ∈ ls, '\n' ∉ line)
    (hr : r.filled = false) (h : r.run (['\n'].intercalate ls) = some r')
    (hr' : r'.filled = true) (hquoting : r'.nesting.quoting = .outside) :
    ∀ line ∈ ls, Solid line := by
  induction ls generalizing r with
  | nil => exact nofun
  | cons line rest ih =>
      obtain ⟨hline, hrest⟩ := List.forall_mem_cons.1 hfeed
      cases rest with
      | nil =>
          refine List.forall_mem_singleton.2 (solid_of_run hline hr ?_ hr' hquoting)
          simpa using h
      | cons next rest =>
          rw [List.intercalate_cons_cons, List.append_assoc, run_append] at h
          obtain ⟨r₁, hfirst, h⟩ := Option.bind_eq_some_iff.1 h
          rw [List.singleton_append, run_cons] at h
          obtain ⟨r₂, hstep, h⟩ := Option.bind_eq_some_iff.1 h
          obtain ⟨hfilled, hquoting₁, rfl⟩ := quoting_of_feed hstep
          refine List.forall_mem_cons.2 ⟨solid_of_run hline hr hfirst hfilled hquoting₁, ?_⟩
          exact ih (List.cons_ne_nil next rest) hrest rfl h

/-- Blanks at the beginning of the lines change nothing. -/
theorem run_padded (n : Nat) (hr : r.nesting.quoting = .outside) :
    r.run (['\n'].intercalate (ls.map (List.replicate n ' ' ++ ·))) =
      r.run (['\n'].intercalate ls) := by
  induction ls generalizing r with
  | nil => rfl
  | cons line rest ih =>
      have hline : ∀ cs, r.run (List.replicate n ' ' ++ cs) = r.run cs := fun cs => by
        rw [run_append, run_blanks n hr, Option.bind_some]
      cases rest with
      | nil => simpa using hline line
      | cons next rest =>
          rw [List.map_cons, List.map_cons, List.intercalate_cons_cons,
            List.intercalate_cons_cons]
          simp only [List.append_assoc]
          rw [hline, run_append, run_append]
          congr 1
          funext r₁
          rw [List.singleton_append, List.singleton_append, run_cons, run_cons]
          cases hstep : r₁.step '\n' with
          | none => rfl
          | some r₂ =>
              obtain ⟨-, hquoting, rfl⟩ := quoting_of_feed hstep
              rw [← List.map_cons]
              exact ih hquoting

end Reading

/-- Code that closes the brackets and literals that it opens, with something on each line. -/
def Tidy (code : String) : Prop := Reading.start.run code.toList = some ⟨.start, true⟩

instance (code : String) : Decidable (Tidy code) := inferInstanceAs (Decidable (_ = _))

variable {code code' : String}

theorem Tidy.run (h : Tidy code) (awaited : List Char) (filled : Bool) :
    Reading.run ⟨⟨awaited, .outside⟩, filled⟩ code.toList = some ⟨⟨awaited, .outside⟩, true⟩ := by
  obtain ⟨filled', hrun⟩ := Reading.run_within h awaited filled
  exact hrun

theorem Tidy.solid (h : Tidy code) : ∀ line ∈ code.toList.splitOn '\n', Solid line := by
  have hlines : ∀ line ∈ code.toList.splitOn '\n', '\n' ∉ line :=
    fun _ hline => (mem_splitOn hline).1
  have hrun : Reading.start.run (['\n'].intercalate (code.toList.splitOn '\n')) =
      some ⟨.start, true⟩ := by
    rw [List.intercalate_splitOn]
    exact h
  exact Reading.solid_of_run_lines (List.splitOn_ne_nil _ _) hlines rfl hrun rfl rfl

theorem Tidy.ne_empty (h : Tidy code) : code ≠ "" := by
  rintro rfl
  cases h

theorem Tidy.feed (h : Tidy code) (h' : Tidy code') : Tidy (code ++ "\n" ++ code') := by
  have hchars : (code ++ "\n" ++ code').toList = code.toList ++ '\n' :: code'.toList := by simp
  rw [Tidy, hchars, Reading.run_append, h, Option.bind_some, Reading.run_cons]
  exact h'

theorem tidy_intercalate {codes : List String} (hne : codes ≠ []) (h : ∀ code ∈ codes, Tidy code) :
    Tidy ("\n".intercalate codes) := by
  induction codes with
  | nil => exact absurd rfl hne
  | cons code rest ih =>
      obtain ⟨hcode, hrest⟩ := List.forall_mem_cons.1 h
      cases rest with
      | nil => rwa [String.intercalate_singleton]
      | cons next rest =>
          rw [String.intercalate_cons_cons]
          exact hcode.feed (ih (List.cons_ne_nil next rest) hrest)

theorem lines_intercalate {ls : List (List Char)} (h : ∀ line ∈ ls, Solid line) :
    lines (['\n'].intercalate ls) = ls := by
  induction ls with
  | nil => rfl
  | cons line rest ih =>
      obtain ⟨hline, hrest⟩ := List.forall_mem_cons.1 h
      cases rest with
      | nil =>
          obtain ⟨c, hc, -⟩ := hline.filled
          have hchars : ¬line.isEmpty = true := by
            rw [List.isEmpty_iff]
            exact List.ne_nil_of_mem hc
          rw [List.intercalate_singleton, lines_of_not_mem hline.feed, if_neg hchars]
      | cons next rest =>
          rw [List.intercalate_cons_cons, List.append_assoc, List.singleton_append,
            lines_append_feed hline.feed, hline.chomp_eq, ih hrest]

/-- Indenting tidy code puts blanks before each of its lines. -/
theorem Tidy.toList_indent (h : Tidy code) (width : Nat) :
    (indent width code).toList = ['\n'].intercalate
      ((code.toList.splitOn '\n').map (List.replicate width ' ' ++ ·)) := by
  have hlines : lines code.toList = code.toList.splitOn '\n' := by
    have hsplit := lines_intercalate h.solid
    rwa [List.intercalate_splitOn] at hsplit
  rw [indent, String.toList_intercalate, hlines, List.map_map]
  congr 1
  refine List.map_congr_left fun line hline => ?_
  obtain ⟨c, hc, -⟩ := (h.solid line hline).filled
  rw [Function.comp_apply, String.toList_ofList, indentLine, if_neg]
  rw [List.isEmpty_iff]
  exact List.ne_nil_of_mem hc

theorem Tidy.indent (h : Tidy code) (width : Nat) : Tidy (indent width code) := by
  rw [Tidy, h.toList_indent, Reading.run_padded width rfl, List.intercalate_splitOn]
  exact h

theorem Reading.nesting_of_run {r r' : Reading} {cs : List Char} (h : r.run cs = some r') :
    cs.foldlM Nesting.step r.nesting = some r'.nesting := by
  induction cs generalizing r with
  | nil =>
      cases h
      rfl
  | cons c cs ih =>
      rw [run_cons] at h
      obtain ⟨r₁, hstep, hrun⟩ := Option.bind_eq_some_iff.1 h
      unfold step at hstep
      split_ifs at hstep
      obtain ⟨n, hn, rfl⟩ := Option.map_eq_some_iff.1 hstep
      rw [List.foldlM_cons, hn]
      exact ih hrun

theorem wellBracketed_sections {sections : List String} (h : ∀ code ∈ sections, Tidy code) :
    wellBracketed ("\n\n".intercalate sections) = true := by
  rw [wellBracketed, beq_iff_eq]
  induction sections with
  | nil => rfl
  | cons code rest ih =>
      obtain ⟨hcode, hrest⟩ := List.forall_mem_cons.1 h
      have hfirst : code.toList.foldlM Nesting.step .start = some .start :=
        Reading.nesting_of_run hcode
      cases rest with
      | nil => rwa [String.intercalate_singleton]
      | cons next rest =>
          rw [String.intercalate_cons_cons, String.toList_append, String.toList_append,
            List.append_assoc, List.foldlM_append, hfirst]
          exact ih hrest

def isBlankLine (line : List Char) : Bool := line.all isBlank

/-- The texts between blank lines. -/
def sections (s : String) : List String :=
  (((s.toList.splitOn '\n').splitOnP isBlankLine).filter (!·.isEmpty)).map fun group =>
    String.ofList (['\n'].intercalate group)

/-- The lines of tidy code are found as one group. -/
theorem Tidy.splitOnP (h : Tidy code) : (code.toList.splitOn '\n').splitOnP isBlankLine =
    [code.toList.splitOn '\n'] := by
  refine List.splitOnP_eq_singleton fun line hline => ?_
  obtain ⟨c, hc, hblank⟩ := (h.solid line hline).filled
  rw [isBlankLine, List.all_eq_false]
  exact ⟨c, hc, by simp [hblank]⟩

/-- Code that is put together with blank lines in between is found again part by part. -/
theorem sections_intercalate {codes : List String} (h : ∀ code ∈ codes, Tidy code) :
    sections ("\n\n".intercalate codes) = codes := by
  have hgroups : codes ≠ [] →
      (("\n\n".intercalate codes).toList.splitOn '\n').splitOnP isBlankLine =
        codes.map (·.toList.splitOn '\n') := by
    induction codes with
    | nil => exact fun hne => absurd rfl hne
    | cons code rest ih =>
        obtain ⟨hcode, hrest⟩ := List.forall_mem_cons.1 h
        cases rest with
        | nil => exact fun _ => hcode.splitOnP
        | cons next rest =>
            have hchars : ("\n\n".intercalate (code :: next :: rest)).toList =
                code.toList ++ '\n' ::
                  ([] ++ '\n' :: ("\n\n".intercalate (next :: rest)).toList) := by
              simp [String.intercalate_cons_cons]
            have hblank : isBlankLine [] = true := rfl
            rw [hchars, List.splitOn_append_cons_self, List.splitOn_append_cons_self,
              List.splitOn_nil, List.singleton_append, List.splitOnP_append_cons _ _ hblank,
              hcode.splitOnP, ih hrest (List.cons_ne_nil next rest)]
            exact fun _ => rfl
  rcases eq_or_ne codes [] with rfl | hne
  · rfl
  · rw [sections, hgroups hne, List.filter_eq_self.2, List.map_map]
    · simp [Function.comp_def]
    · simp [List.splitOn_ne_nil]

end AgentBlocks.Text
