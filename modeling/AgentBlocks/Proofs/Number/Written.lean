import AgentBlocks.Proofs.Number.Reading

/-!
The grammar of numbers in text fields, and which of them are not finite. What is read behind an
optional sign is a word, or a magnitude: digits with an optional point, at least one in all, and an
optional exponent.
-/
namespace AgentBlocks.Written

def IsSign (sign : List Char) : Prop := sign ∈ [[], ['+'], ['-']]

def words : List (List Char) := ["inf".toList, "infinity".toList, "nan".toList]

/-- The exponent behind a magnitude: nothing, or a letter, an optional sign and digits. -/
inductive Exponent : List Char → Int → Prop
  | absent : Exponent [] 0
  | digits {letter sign digits} : letter ∈ ['e', 'E'] → IsSign sign → digits ≠ [] →
      (∀ c ∈ digits, isDigit c = true) →
      Exponent (letter :: (sign ++ digits))
        (if sign = ['-'] then -digitsValue digits else digitsValue digits)

/-- The characters are a magnitude: the digits before and behind the point, with an exponent that
counts from the last of them. -/
inductive Denotes : List Char → Scaled → Prop
  | whole {whole tail e} : whole ≠ [] → (∀ c ∈ whole, isDigit c = true) → Exponent tail e →
      Denotes (whole ++ tail) ⟨whole, e⟩
  | pointed {whole fraction tail e} : whole ++ fraction ≠ [] →
      (∀ c ∈ whole ++ fraction, isDigit c = true) → Exponent tail e →
      Denotes (whole ++ '.' :: (fraction ++ tail)) ⟨whole ++ fraction, e - fraction.length⟩

/-- The characters spell a number that is not finite: a word for an infinity or for no number, or a
magnitude that is rounded to infinity, with an optional sign in front. -/
inductive Beyond : List Char → Prop
  | word {sign word} : IsSign sign → word.map Char.toLower ∈ words → Beyond (sign ++ word)
  | magnitude {sign cs m} : IsSign sign → Denotes cs m → Binary64.limit ≤ m.magnitude →
      Beyond (sign ++ cs)

/-- Nothing is taken off in front of these characters as a sign. -/
def Unsigned (cs : List Char) : Prop := ∀ c ∈ cs.head?, c ≠ '+' ∧ c ≠ '-'

theorem unsigned_nil : Unsigned [] := by
  rintro _ ⟨⟩

theorem unsigned_cons {c : Char} {rest : List Char} :
    Unsigned (c :: rest) ↔ c ≠ '+' ∧ c ≠ '-' := by
  simp [Unsigned]

theorem unsigned_append {digits tail : List Char} (h : ∀ c ∈ digits, isDigit c = true)
    (htail : digits = [] → Unsigned tail) : Unsigned (digits ++ tail) := by
  cases digits with
  | nil => exact htail rfl
  | cons c rest =>
      have hsigns : isDigit '+' = false ∧ isDigit '-' = false := by decide
      have hdigit := h c List.mem_cons_self
      refine unsigned_cons.2 ⟨?_, ?_⟩
      · rintro rfl
        exact Bool.false_ne_true (hsigns.1.symm.trans hdigit)
      · rintro rfl
        exact Bool.false_ne_true (hsigns.2.symm.trans hdigit)

theorem unsigned_of_digits {cs : List Char} (h : ∀ c ∈ cs, isDigit c = true) : Unsigned cs := by
  have happend := unsigned_append h fun _ => unsigned_nil
  rwa [List.append_nil] at happend

theorem unsigned_of_word {cs : List Char} (h : cs.map Char.toLower ∈ words) : Unsigned cs := by
  have hwords : ∀ word ∈ words, word.head? ≠ some '+' ∧ word.head? ≠ some '-' := by decide
  obtain ⟨hplus, hminus⟩ := hwords _ h
  cases cs with
  | nil => exact unsigned_nil
  | cons c rest =>
      refine unsigned_cons.2 ⟨?_, ?_⟩
      · rintro rfl
        exact hplus rfl
      · rintro rfl
        exact hminus rfl

theorem unsigned_of_denotes {cs : List Char} {m : Scaled} (h : Denotes cs m) : Unsigned cs := by
  cases h with
  | whole hne hdigits hexponent => exact unsigned_append hdigits fun hempty => absurd hempty hne
  | pointed hne hdigits hexponent =>
      have hwhole := (List.forall_mem_append.1 hdigits).1
      exact unsigned_append hwhole fun _ => unsigned_cons.2 (by decide)

theorem takeSign_append {sign rest : List Char} (hsign : IsSign sign) (hrest : Unsigned rest) :
    takeSign (sign ++ rest) = (decide (sign = ['-']), rest) := by
  simp only [IsSign, List.mem_cons, List.not_mem_nil, or_false] at hsign
  obtain rfl | rfl | rfl := hsign
  · cases rest with
    | nil => rfl
    | cons c rest =>
        obtain ⟨hplus, hminus⟩ := unsigned_cons.1 hrest
        simp [takeSign, hplus, hminus]
  · rfl
  · rfl

theorem takeSign_split (cs : List Char) :
    ∃ sign, IsSign sign ∧ cs = sign ++ (takeSign cs).2 ∧
      (takeSign cs).1 = decide (sign = ['-']) := by
  unfold takeSign
  split
  · exact ⟨['+'], by simp [IsSign], rfl, rfl⟩
  · exact ⟨['-'], by simp [IsSign], rfl, rfl⟩
  · exact ⟨[], by simp [IsSign], rfl, rfl⟩

theorem exponentPart_eq_some_iff {cs : List Char} {e : Int} :
    exponentPart cs = some e ↔ Exponent cs e := by
  constructor
  · intro h
    cases cs with
    | nil =>
        cases h
        exact .absent
    | cons letter rest =>
        obtain ⟨sign, hsign, hrest, hnegative⟩ := takeSign_split rest
        simp only [exponentPart] at h
        split at h
        · rename_i hletter
          split at h
          · cases h
          · rename_i hdigits
            simp only [Bool.or_eq_true, Bool.not_eq_true', not_or, Bool.not_eq_false,
              List.isEmpty_iff] at hdigits
            cases h
            rw [hnegative]
            nth_rewrite 1 [hrest]
            simp only [decide_eq_true_eq]
            exact .digits (by simpa using hletter) hsign hdigits.1 (List.all_eq_true.1 hdigits.2)
        · cases h
  · intro h
    cases h with
    | absent => rfl
    | @digits letter sign digits hletter hsign hne hdigits =>
        have hall : digits.all isDigit = true := List.all_eq_true.2 hdigits
        have hempty : digits.isEmpty = false := List.isEmpty_eq_false_iff.2 hne
        rw [exponentPart, if_pos (by simpa using hletter),
          takeSign_append hsign (unsigned_of_digits hdigits)]
        simp [hall, hempty]

theorem stops_of_exponent {cs : List Char} {e : Int} (h : Exponent cs e) : Numeral.Stops cs := by
  cases h with
  | absent => trivial
  | digits hletter hsign hne hdigits =>
      simp only [List.mem_cons, List.not_mem_nil, or_false] at hletter
      obtain rfl | rfl := hletter
      · exact (by decide : isDigit 'e' = false)
      · exact (by decide : isDigit 'E' = false)

theorem ne_point_of_exponent {cs : List Char} {e : Int} (h : Exponent cs e) (rest : List Char) :
    cs ≠ '.' :: rest := by
  rintro rfl
  cases h with
  | digits hletter hsign hne hdigits => exact absurd hletter (by decide)

theorem scaled?_of_point {cs rest : List Char} (h : cs.dropWhile isDigit = '.' :: rest) :
    scaled? cs =
      if cs.takeWhile isDigit ++ rest.takeWhile isDigit = [] then none
      else (exponentPart (rest.dropWhile isDigit)).map fun e =>
        ⟨cs.takeWhile isDigit ++ rest.takeWhile isDigit, e - (rest.takeWhile isDigit).length⟩ := by
  simp only [scaled?, h, List.append_eq_nil_iff, Bool.and_eq_true, List.isEmpty_iff]

theorem scaled?_of_no_point {cs : List Char} (h : ∀ rest, cs.dropWhile isDigit ≠ '.' :: rest) :
    scaled? cs =
      if cs.takeWhile isDigit = [] then none
      else (exponentPart (cs.dropWhile isDigit)).map fun e => ⟨cs.takeWhile isDigit, e⟩ := by
  unfold scaled?
  dsimp only
  split
  · rename_i hpoint
    exact absurd hpoint (h _)
  · simp

theorem scaled?_eq_some_iff {cs : List Char} {m : Scaled} :
    scaled? cs = some m ↔ Denotes cs m := by
  constructor
  · intro h
    have hcs : cs.takeWhile isDigit ++ cs.dropWhile isDigit = cs := List.takeWhile_append_dropWhile
    have hwhole : ∀ c ∈ cs.takeWhile isDigit, isDigit c = true := fun c => List.mem_takeWhile_imp
    by_cases hpoint : ∃ rest, cs.dropWhile isDigit = '.' :: rest
    · obtain ⟨rest, hrest⟩ := hpoint
      have hfraction : ∀ c ∈ rest.takeWhile isDigit, isDigit c = true :=
        fun c => List.mem_takeWhile_imp
      rw [scaled?_of_point hrest] at h
      split at h
      · cases h
      · rename_i hne
        obtain ⟨e, hexponent, rfl⟩ := Option.map_eq_some_iff.1 h
        have hspelled : cs = cs.takeWhile isDigit ++ '.' ::
            (rest.takeWhile isDigit ++ rest.dropWhile isDigit) := by
          rw [List.takeWhile_append_dropWhile, ← hrest, hcs]
        nth_rewrite 1 [hspelled]
        exact .pointed hne (List.forall_mem_append.2 ⟨hwhole, hfraction⟩)
          (exponentPart_eq_some_iff.1 hexponent)
    · rw [scaled?_of_no_point (not_exists.1 hpoint)] at h
      split at h
      · cases h
      · rename_i hne
        obtain ⟨e, hexponent, rfl⟩ := Option.map_eq_some_iff.1 h
        nth_rewrite 1 [← hcs]
        exact .whole hne hwhole (exponentPart_eq_some_iff.1 hexponent)
  · intro h
    cases h with
    | @whole whole tail e hne hdigits hexponent =>
        have hstops := stops_of_exponent hexponent
        have hdrop := Numeral.dropWhile_digits hdigits hstops
        have hpoint := ne_point_of_exponent hexponent
        rw [← hdrop] at hpoint
        rw [scaled?_of_no_point hpoint, hdrop, Numeral.takeWhile_digits hdigits hstops, if_neg hne,
          exponentPart_eq_some_iff.2 hexponent, Option.map_some]
    | @pointed whole fraction tail e hne hdigits hexponent =>
        have hstops := stops_of_exponent hexponent
        obtain ⟨hwhole, hfraction⟩ := List.forall_mem_append.1 hdigits
        have hpoint : Numeral.Stops ('.' :: (fraction ++ tail)) := (by decide : isDigit '.' = false)
        rw [scaled?_of_point (Numeral.dropWhile_digits hwhole hpoint),
          Numeral.takeWhile_digits hwhole hpoint, Numeral.takeWhile_digits hfraction hstops,
          Numeral.dropWhile_digits hfraction hstops, if_neg hne,
          exponentPart_eq_some_iff.2 hexponent, Option.map_some]

theorem isDigit_of_denotes {cs : List Char} {m : Scaled} (h : Denotes cs m) :
    ∀ c ∈ m.digits, isDigit c = true := by
  cases h with
  | whole hne hdigits hexponent => exact hdigits
  | pointed hne hdigits hexponent => exact hdigits

/-- What is read behind the sign decides whether a number is finite. -/
theorem beyond_iff {cs : List Char} : Beyond cs ↔
    (takeSign cs).2.map Char.toLower ∈ words ∨
      ∃ m, scaled? (takeSign cs).2 = some m ∧ Binary64.limit ≤ m.magnitude := by
  constructor
  · intro h
    cases h with
    | word hsign hword =>
        rw [takeSign_append hsign (unsigned_of_word hword)]
        exact .inl hword
    | magnitude hsign hdenotes hlimit =>
        rw [takeSign_append hsign (unsigned_of_denotes hdenotes)]
        exact .inr ⟨_, scaled?_eq_some_iff.2 hdenotes, hlimit⟩
  · intro h
    obtain ⟨sign, hsign, hcs, -⟩ := takeSign_split cs
    rw [hcs]
    rcases h with hword | ⟨m, hscaled, hlimit⟩
    · exact .word hsign hword
    · exact .magnitude hsign (scaled?_eq_some_iff.1 hscaled) hlimit

/-- A text is read as a finite number, or as none, exactly when it spells no other number. -/
theorem isFinite_number?_iff (cs : List Char) :
    ((number? cs).getD (.zero false)).isFinite = true ↔ ¬Beyond cs := by
  rw [beyond_iff, not_or, words, List.mem_cons, List.mem_cons, List.mem_singleton, not_or, not_or]
  unfold number?
  dsimp only
  split
  · rename_i hword
    refine iff_of_false ?_ fun h => hword.elim h.1.1 h.1.2.1
    cases (takeSign cs).1 <;> decide
  · rename_i hword
    obtain ⟨hinf, hinfinity⟩ := not_or.1 hword
    split
    · rename_i hnan
      exact iff_of_false (by decide) fun h => h.1.2.2 hnan
    · rename_i hnan
      rw [and_iff_right ⟨hinf, hinfinity, hnan⟩]
      cases hscaled : scaled? (takeSign cs).2 with
      | none =>
          have hzero : (Binary64.zero false).isFinite = true := by decide
          exact iff_of_true hzero (by simp)
      | some m =>
          have hdigits := isDigit_of_denotes (scaled?_eq_some_iff.1 hscaled)
          rw [Option.map_some, Option.getD_some, Scaled.isFinite_value_iff hdigits]
          simp

end AgentBlocks.Written
