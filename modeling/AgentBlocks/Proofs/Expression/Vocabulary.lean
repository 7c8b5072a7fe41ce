import AgentBlocks.Proofs.Catalog.Nodes
import AgentBlocks.Proofs.Registry.Coherence

/-!
The vocabulary of a model: its functions are those of the language and the singulars of the breeds
that it declares. Coherent registries declare no keyword as a name.
-/
namespace AgentBlocks

theorem toNat_of_isNamePart {c : Char} (h : isNamePart c = true) :
    c.toNat = 45 ∨ c.toNat = 95 ∨ (48 ≤ c.toNat ∧ c.toNat ≤ 57) ∨ (65 ≤ c.toNat ∧ c.toNat ≤ 90) ∨
      (97 ≤ c.toNat ∧ c.toNat ≤ 122) := by
  simp only [isNamePart, isNameStart, isNameLetter, Bool.or_eq_true, Bool.and_eq_true,
    decide_eq_true_eq, beq_iff_eq, Char.le_def, UInt32.le_iff_toNat_le] at h
  rcases h with ((((h | h) | rfl) | rfl) | h)
  · exact .inr (.inr (.inr (.inl h)))
  · exact .inr (.inr (.inr (.inr h)))
  · exact .inr (.inl rfl)
  · exact .inl rfl
  · exact .inr (.inr (.inl h))

theorem Scan.isWordChar_of_isNamePart {c : Char} (h : isNamePart c = true) :
    isWordChar c = true := by
  have hcode := toNat_of_isNamePart h
  have hblank : Text.isBlank c = false := by
    simp [Text.isBlank, Text.isBlankCode, Text.blankRanges]
    omega
  have hne : ∀ d : Char, d.toNat ∈ [34, 40, 41, 91, 93] → c ≠ d := by
    rintro d hd rfl
    simp at hd
    omega
  simp [isWordChar, isBracket, hblank, hne]

theorem lexeme_of_isValidName {name : String} (h : isValidName name = true) : Lexeme name := by
  unfold isValidName at h
  cases hchars : name.toList with
  | nil =>
      rw [hchars] at h
      cases h
  | cons c rest =>
      rw [hchars] at h
      obtain ⟨hstart, hrest⟩ := Bool.and_eq_true_iff.1 h
      refine .word ?_ (List.all_eq_true.2 fun d hd => Scan.isWordChar_of_isNamePart ?_)
      · rintro rfl
        cases hchars
      · rw [hchars] at hd
        rcases List.mem_cons.1 hd with rfl | hd
        · simp [isNamePart, hstart]
        · exact List.all_eq_true.1 hrest d hd

theorem Usable.not_mem_keywords {name : String} (h : Usable name) : name ∉ keywords := by
  have hreserved : ∀ token ∈ keywords, isValidName token = true → isReservedWord token = true := by
    decide +kernel
  intro hmem
  have hfree := h.2
  rw [hreserved name hmem h.1] at hfree
  cases hfree

namespace Standard

def functionNames : List String := mathFunctions ++ functionTypes.map fun row => row.2.1

theorem lexeme_functionNames : ∀ name ∈ functionNames, Lexeme name := by
  have hchars : ∀ name ∈ functionNames,
      name ≠ "" ∧ name.toList.all Scan.isWordChar = true := by decide
  exact fun name hname => .word (hchars name hname).1 (hchars name hname).2

theorem not_mem_keywords_of_function : ∀ name ∈ functionNames, name ∉ keywords := by decide

/-- The singular that is offered for a turtle is that of a declared breed. -/
theorem usable_of_singular {r : Registries} (h : r.Coherent) {name : String}
    (hname : name ∈ singularTurtleChoices r) : name = "turtle" ∨ Usable name := by
  rcases List.mem_cons.1 hname with rfl | hname
  · exact .inl rfl
  · obtain ⟨b, hb, rfl⟩ := List.mem_map.1 hname
    exact .inr (h.breeds b (List.mem_filter.1 hb).1).singular

end Standard

open Standard

/-- The functions of the language and the singulars that are offered for turtles. -/
def Vocabulary.ofRegistries (r : Registries) (h : r.Coherent) : Vocabulary where
  names := functionNames ++ singularTurtleChoices r
  lexeme := by
    intro name hname
    rcases List.mem_append.1 hname with hname | hname
    · exact lexeme_functionNames name hname
    · rcases usable_of_singular h hname with rfl | husable
      · exact lexeme_of_isValidName (by decide)
      · exact lexeme_of_isValidName husable.1
  plain := by
    intro name hname
    rcases List.mem_append.1 hname with hname | hname
    · exact not_mem_keywords_of_function name hname
    · rcases usable_of_singular h hname with rfl | husable
      · decide
      · exact husable.not_mem_keywords

end AgentBlocks
