import AgentBlocks.Proofs.Catalog.NameTokens
import AgentBlocks.Proofs.Number.Written
import AgentBlocks.Proofs.Project.Fields

/-!
Numbers in program text. A finite number is written in plain digits. The others are written as
words, and of all literals in a project file only texts that spell such a number lead to one.
-/
namespace AgentBlocks

/-- Digits, and optionally a point and more digits. -/
inductive IsPlainMagnitude : List Char → Prop
  | whole {digits} : digits ≠ [] → (∀ c ∈ digits, isDigit c = true) → IsPlainMagnitude digits
  | pointed {whole fraction} : whole ≠ [] → (∀ c ∈ whole, isDigit c = true) → fraction ≠ [] →
      (∀ c ∈ fraction, isDigit c = true) → IsPlainMagnitude (whole ++ '.' :: fraction)

/-- A plain magnitude with an optional minus sign in front. -/
def IsPlainNumber (text : String) : Prop :=
  ∃ sign ∈ [[], ['-']], ∃ magnitude, IsPlainMagnitude magnitude ∧ text.toList = sign ++ magnitude

theorem IsPlainMagnitude.mem {magnitude : List Char} (h : IsPlainMagnitude magnitude) {c : Char}
    (hc : c ∈ magnitude) : isDigit c = true ∨ c = '.' := by
  cases h with
  | whole hne hdigits => exact .inl (hdigits c hc)
  | pointed hwhole hwholeDigits hfraction hfractionDigits =>
      rw [List.mem_append, List.mem_cons] at hc
      rcases hc with hc | rfl | hc
      · exact .inl (hwholeDigits c hc)
      · exact .inr rfl
      · exact .inl (hfractionDigits c hc)

theorem IsPlainNumber.mem {text : String} (h : IsPlainNumber text) {c : Char}
    (hc : c ∈ text.toList) : isDigit c = true ∨ c = '.' ∨ c = '-' := by
  obtain ⟨sign, hsign, magnitude, hmagnitude, htext⟩ := h
  rw [htext, List.mem_append] at hc
  rcases hc with hc | hc
  · simp only [List.mem_cons, List.not_mem_nil, or_false] at hsign
    rcases hsign with rfl | rfl
    · cases hc
    · exact .inr (.inr (List.mem_singleton.1 hc))
  · exact (hmagnitude.mem hc).imp_right .inl

namespace Binary64

/-- The words for values that are not finite. -/
def words : List String := ["NaN", "inf", "-inf"]

theorem not_isPlainNumber_of_mem_words {word : String} (h : word ∈ words) :
    ¬IsPlainNumber word := by
  have hletters : ∀ word ∈ words,
      word.toList.any (fun c => !isDigit c && c != '.' && c != '-') = true := by decide
  obtain ⟨c, hc, hletter⟩ := List.any_eq_true.1 (hletters word h)
  intro hplain
  rcases hplain.mem hc with hdigit | rfl | rfl
  · simp [hdigit] at hletter
  · cases hletter
  · cases hletter

theorem display_mem_words {v : Binary64} (h : v.isFinite = false) : v.display ∈ words := by
  have hrank : infinityRank ≤ v.rank := Nat.le_of_not_lt (of_decide_eq_false h)
  unfold display
  split
  · decide
  · rename_i hnan
    have hinfinite : v.isInfinite = true := by
      have hle : v.rank ≤ infinityRank := Nat.le_of_not_lt fun hlt => hnan (decide_eq_true hlt)
      exact beq_iff_eq.2 (Nat.le_antisymm hle hrank)
    rw [if_pos hinfinite]
    cases v.negative <;> decide

theorem isPlainMagnitude_magnitudeText (v : Binary64) : IsPlainMagnitude v.magnitudeText := by
  unfold magnitudeText
  split
  · exact .whole (List.cons_ne_nil _ _) (List.forall_mem_singleton.2 (by decide))
  · have hne := pointed_ne_nil (v.shortest .up).positional.1 (v.shortest .up).positional.2
    have hdigits := fun c => v.isDigit_of_mem_pointed (c := c)
    dsimp only
    split
    · rename_i hpointed
      rw [hpointed] at hne hdigits
      exact .whole hne fun c hc => hdigits c (.inl hc)
    · rename_i hfraction hpointed
      rw [hpointed] at hne hdigits
      exact .pointed hne (fun c hc => hdigits c (.inl hc)) hfraction fun c hc => hdigits c (.inr hc)

theorem isPlainNumber_display_iff (v : Binary64) :
    IsPlainNumber v.display ↔ v.isFinite = true := by
  constructor
  · intro hplain
    by_contra hnot
    exact not_isPlainNumber_of_mem_words (display_mem_words (Bool.eq_false_iff.2 hnot)) hplain
  · intro hfinite
    have htext := toList_display hfinite
    split at htext
    · exact ⟨['-'], by simp, _, v.isPlainMagnitude_magnitudeText, htext⟩
    · exact ⟨[], by simp, _, v.isPlainMagnitude_magnitudeText, htext⟩

end Binary64

namespace Standard

/-- The literal for the number, if the block has one, may stand in a project file. -/
def FromFile (b : Block) : Prop :=
  ∀ value, b.field? "NUM" = some value → ∃ j, FieldValue.ofJson? j = some value

theorem isFinite_number_iff {b : Block} (h : FromFile b) : (number b).isFinite = true ↔
    ∀ s, b.field? "NUM" = some (.text s) → ¬Written.Beyond (Text.trim s.toList) := by
  have hzero : (Binary64.zero false).isFinite = true := by decide
  unfold number
  cases hfield : b.field? "NUM" with
  | none => exact iff_of_true hzero (by simp)
  | some value =>
      cases value with
      | bool value => exact iff_of_true hzero (by simp)
      | number v =>
          obtain ⟨j, hj⟩ := h _ hfield
          exact iff_of_true (FieldValue.isFinite_of_ofJson? hj) (by simp)
      | text s =>
          rw [Option.bind_some, FieldValue.number?, Written.isFinite_number?_iff]
          simp

/-- A block for a number writes plain digits, whatever literal a project file gives it, unless this
is a text that spells an infinity, a number beyond the finite ones or no number. -/
theorem writesPlainNumber (b : Block) (r : Registries) (htype : b.blockType = "math_number")
    (hfile : FromFile b) :
    b.WrittenAs r (.word (number b).display) ∧
      (IsPlainNumber (number b).display ∨ (number b).display ∈ Binary64.words) ∧
      (IsPlainNumber (number b).display ↔
        ∀ s, b.field? "NUM" = some (.text s) → ¬Written.Beyond (Text.trim s.toList)) := by
  refine ⟨Block.writtenAs_of_template? (by rw [htype]; rfl), ?_, ?_⟩
  · cases hfinite : (number b).isFinite with
    | true => exact .inl ((number b).isPlainNumber_display_iff.2 hfinite)
    | false => exact .inr (Binary64.display_mem_words hfinite)
  · rw [Binary64.isPlainNumber_display_iff, isFinite_number_iff hfile]

/-- A block for a number that has a text in its field. -/
def numberBlock (text : String) : Block := Block.new "math_number" |>.withField "NUM" (.text text)

/-- The part of a project file that such a block is read from. -/
def numberJson (text : String) : Json :=
  .object [(some "type", .string (some "math_number")),
    (some "fields", .object [(some "NUM", .string (some text))])]

theorem fromFile_numberBlock (text : String) : FromFile (numberBlock text) :=
  fun _ => Block.exists_of_ofJson? (j := numberJson text) rfl

/-- Blanks and an exponent are read, and not written. -/
theorem writesPlainNumber_minusFive :
    (numberBlock " -.5E1 ").blockType = "math_number" ∧ FromFile (numberBlock " -.5E1 ") ∧
      (numberBlock " -.5E1 ").WrittenAs .empty (.word "-5") ∧ IsPlainNumber "-5" := by
  have hfile := fromFile_numberBlock " -.5E1 "
  have hread : ¬Written.Beyond (Text.trim " -.5E1 ".toList) :=
    (Written.isFinite_number?_iff _).1 (by decide +kernel)
  have hdisplay : (number (numberBlock " -.5E1 ")).display = "-5" := by decide +kernel
  obtain ⟨hwritten, -, hplain⟩ := writesPlainNumber (numberBlock " -.5E1 ") .empty rfl hfile
  rw [hdisplay] at hwritten hplain
  refine ⟨rfl, hfile, hwritten, hplain.2 ?_⟩
  rintro s ⟨⟩
  exact hread

/-- A text that spells infinity is written as a word. -/
theorem not_plainNumber_infinity :
    ¬∀ b : Block, ∀ text, b.blockType = "math_number" → FromFile b →
      b.WrittenAs .empty (.word text) → IsPlainNumber text := by
  have hdisplay : (number (numberBlock "inf")).display = "inf" := by decide +kernel
  have htemplate : template? "math_number" (numberBlock "inf") .empty = some (.word "inf") :=
    congrArg (fun text => some (Template.word text)) hdisplay
  intro hplain
  exact Binary64.not_isPlainNumber_of_mem_words (by decide) (hplain _ "inf" rfl
    (fromFile_numberBlock "inf") (Block.writtenAs_of_template? htemplate))

end Standard

end AgentBlocks
