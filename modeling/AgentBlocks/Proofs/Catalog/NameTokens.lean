import AgentBlocks.Proofs.Catalog.EndWords

/-!
Names beside numbers and operators. A name may begin with a hyphen, so a negative number without a
fraction is written as a name may be, and the name `-` is written as the sign of subtraction is.
No other number and no other operator is written as a name.
-/
namespace AgentBlocks

open Text

namespace Binary64

/-- A negative number that is written without a fraction. -/
def isHyphened (x : Binary64) : Bool :=
  x.negative && !x.isZero && !x.magnitudeText.contains '.'

theorem toList_display {x : Binary64} (h : x.isFinite = true) :
    x.display.toList =
      if x.negative && !x.isZero then '-' :: x.magnitudeText else x.magnitudeText := by
  have hrank : x.rank < infinityRank := of_decide_eq_true h
  have hnan : x.isNaN = false := decide_eq_false (Nat.lt_asymm hrank)
  have hinfinite : x.isInfinite = false := beq_false_of_ne (Nat.ne_of_lt hrank)
  rw [display, hnan, hinfinite]
  simp

theorem not_isNameStart_magnitudeText {x : Binary64} {c : Char} (h : c ∈ x.magnitudeText) :
    isNameStart c = false := by
  rcases mem_magnitudeText h with hdigit | rfl
  · have hcode : 48 ≤ c.toNat ∧ c.toNat ≤ 57 := by
      rw [isDigit, Bool.and_eq_true, decide_eq_true_eq, decide_eq_true_eq] at hdigit
      exact hdigit
    rw [Bool.eq_false_iff, ne_eq, isNameStart_iff]
    omega
  · decide

theorem all_isNamePart_magnitudeText (x : Binary64) :
    x.magnitudeText.all isNamePart = !x.magnitudeText.contains '.' := by
  rw [Bool.eq_iff_iff, List.all_eq_true, Bool.not_eq_true', Bool.eq_false_iff, ne_eq,
    List.contains_iff_mem]
  constructor
  · intro hparts hpoint
    exact absurd (hparts _ hpoint) (by decide)
  · intro hpoint c hc
    rcases mem_magnitudeText hc with hdigit | rfl
    · exact Bool.or_eq_true_iff.2 (.inr hdigit)
    · exact absurd hc hpoint

/-- A finite number is written as a name may be exactly when it is negative and has no fraction. -/
theorem isValidName_display {x : Binary64} (h : x.isFinite = true) :
    isValidName x.display = x.isHyphened := by
  rw [isValidName, toList_display h, isHyphened]
  cases hsign : x.negative && !x.isZero with
  | true => exact x.all_isNamePart_magnitudeText
  | false =>
      -- without a sign the text begins with a digit
      obtain ⟨c, rest, hchars⟩ := List.exists_cons_of_ne_nil x.magnitudeText_ne_nil
      have hstart : isNameStart c = false :=
        not_isNameStart_magnitudeText (hchars ▸ List.mem_cons_self)
      rw [if_neg Bool.false_ne_true, hchars, isValidNameChars, hstart, Bool.false_and,
        Bool.false_and]

/-- The text of such a number is a hyphen before digits. -/
theorem digits_of_isHyphened {x : Binary64} (hfinite : x.isFinite = true)
    (h : x.isHyphened = true) : ∃ digits, digits ≠ [] ∧ (∀ c ∈ digits, isDigit c = true) ∧
      x.display.toList = '-' :: digits := by
  rw [isHyphened, Bool.and_eq_true, Bool.not_eq_true', Bool.eq_false_iff, ne_eq,
    List.contains_iff_mem] at h
  obtain ⟨hsign, hpoint⟩ := h
  refine ⟨x.magnitudeText, x.magnitudeText_ne_nil, fun c hc => ?_, ?_⟩
  · exact (mem_magnitudeText hc).resolve_right fun heq => hpoint (heq ▸ hc)
  · rw [toList_display hfinite, if_pos hsign]

/-- Such a text is no reserved word, so it is free to be a name. -/
theorem usable_of_isHyphened {x : Binary64} (hfinite : x.isFinite = true)
    (h : x.isHyphened = true) : Usable x.display := by
  have hreserved : ∀ word ∈ reservedWords, word.toList.head? ≠ some '-' := by decide +kernel
  obtain ⟨digits, -, -, htext⟩ := digits_of_isHyphened hfinite h
  refine ⟨(isValidName_display hfinite).trans h, ?_⟩
  rw [isReservedWord, Bool.eq_false_iff, ne_eq, List.contains_iff_mem]
  intro hmem
  refine hreserved _ hmem ?_
  rw [fold, String.toList_map, htext]
  rfl

end Binary64

theorem usable_hyphen : Usable "-" := ⟨by decide, by decide +kernel⟩

/-- The only operator whose symbol may be a name is subtraction. -/
theorem Operator.eq_sub_of_usable {op : Operator} (h : Usable op.symbol) : op = .sub := by
  have hsymbols : ∀ op ∈ all, isValidName op.symbol = true → isReservedWord op.symbol = false →
      op = .sub := by decide +kernel
  exact hsymbols op (by cases op <;> decide) h.1 h.2

/-- How blocks write the name of a variable or a breed, which they have in a field. -/
structure NameUse where
  type : String
  field : String
  template : String → Template

namespace Standard

def nameUses : List NameUse :=
  [⟨"variable_get", "VAR", .word⟩,
    ⟨"variable_set", "VAR", fun name =>
      .statement [.text ("set " ++ name ++ " "), .value "VALUE" (.upTo .none)]⟩,
    ⟨"agentset_breed", "BREED", .word⟩]

/-- The number in a block that stands for one. -/
def number (b : Block) : Binary64 := ((b.field? "NUM").bind (·.number?)).getD (.zero false)

end Standard

namespace Registries

variable {r : Registries}

/-- A token that is no keyword, no number but one with a hyphen and without a fraction, and no
operator but that of subtraction. -/
structure SetsApart (r : Registries) (token : String) : Prop where
  number : ∀ b : Block, b.blockType = "math_number" → (Standard.number b).isFinite = true →
    b.WrittenAs r (.word (Standard.number b).display) ∧
      (token = (Standard.number b).display → (Standard.number b).isHyphened = true ∧
        ∃ digits, digits ≠ [] ∧ (∀ c ∈ digits, isDigit c = true) ∧ token.toList = '-' :: digits)
  operator : ∀ b op, Standard.IsNode b r (.infixed op) →
    b.WrittenAs r (.infixed op.symbol op.level) ∧ (token = op.symbol → op = .sub)
  keyword : token ∉ keywords

/-- Tokens of names are told apart from numbers and operators, but for those that begin with a
hyphen and go on with digits alone, and these may all be names. -/
structure TellsNamesApart (r : Registries) : Prop where
  written : ∀ use ∈ Standard.nameUses, ∀ b : Block, ∀ text, b.blockType = use.type →
    b.fieldText? use.field = some text → (∃ name ∈ r.names, sameName name text = true) →
      ∃ token, b.WrittenAs r (use.template token) ∧ r.SetsApart token
  accepted : ∀ text, text = "-" ∨ (∃ x : Binary64, x.isFinite = true ∧ x.isHyphened = true ∧
      x.display = text) →
    ((∃ out, r.addVariable text .global = .ok out) ↔ ∀ name ∈ r.names, fold name ≠ fold text)

theorem setsApart_of_usable {token : String} (h : Usable token) : r.SetsApart token where
  number b htype hfinite := by
    refine ⟨Block.writtenAs_of_template? (by rw [htype]; rfl), fun htoken => ?_⟩
    have hhyphened : (Standard.number b).isHyphened = true := by
      rw [← Binary64.isValidName_display hfinite, ← htoken, h.1]
    rw [htoken]
    exact ⟨hhyphened, Binary64.digits_of_isHyphened hfinite hhyphened⟩
  operator b op hnode := by
    refine ⟨Block.writtenAs_of_template? hnode.template, fun htoken => ?_⟩
    exact Operator.eq_sub_of_usable (htoken ▸ h)
  keyword := h.not_mem_keywords

/-- The token of a block that has a name in its field is that name or the declared spelling. -/
theorem nameToken (r : Registries) {text : String} (hvalid : isValidName text = true) :
    ∀ use ∈ Standard.nameUses, ∀ b : Block, b.fieldText? use.field = some text →
      ∃ token, Standard.template? use.type b r = some (use.template token) ∧
        (token = text ∨ token ∈ r.names) := by
  have hplural : ∀ b : Block, b.fieldText? "BREED" = some text →
      r.pluralOf (b.fieldOr "BREED" "turtles") = text ∨
        r.pluralOf (b.fieldOr "BREED" "turtles") ∈ r.names := by
    intro b htext
    rw [Block.fieldOr_of_isValidName htext hvalid]
    rcases r.pluralOf_eq text with h | ⟨breed, hbreed, h⟩
    · exact .inl h
    · exact .inr (h ▸ (breedName_mem hbreed).1)
  have hspelling : ∀ fallback, ∀ b : Block, b.fieldText? "VAR" = some text →
      r.spellingOf (b.fieldOr "VAR" fallback) = text ∨
        r.spellingOf (b.fieldOr "VAR" fallback) ∈ r.names := by
    intro fallback b htext
    rw [Block.fieldOr_of_isValidName htext hvalid]
    rcases r.spellingOf_eq text with h | ⟨v, hv, h⟩
    · exact .inl h
    · exact .inr (h ▸ variableName_mem hv)
  simp only [Standard.nameUses, List.forall_mem_cons]
  exact ⟨fun b htext => ⟨_, rfl, hspelling "0" b htext⟩,
    fun b htext => ⟨_, rfl, hspelling "x" b htext⟩, fun b htext => ⟨_, rfl, hplural b htext⟩,
    List.forall_mem_nil _⟩

theorem Coherent.tellsNamesApart (hr : r.Coherent) : r.TellsNamesApart where
  written use huse b text htype htext hlive := by
    obtain ⟨name, hname, hsame⟩ := hlive
    have husable : Usable text := (hr.usable_name hname).of_fold_eq (sameName_iff.1 hsame)
    obtain ⟨token, htemplate, htoken⟩ := r.nameToken husable.1 use huse b htext
    refine ⟨token, Block.writtenAs_of_template? (htype ▸ htemplate), setsApart_of_usable ?_⟩
    rcases htoken with rfl | htoken
    · exact husable
    · exact hr.usable_name htoken
  accepted text htext := by
    have husable : Usable text := by
      rcases htext with rfl | ⟨x, hfinite, hhyphened, rfl⟩
      · exact usable_hyphen
      · exact Binary64.usable_of_isHyphened hfinite hhyphened
    exact hr.addVariable_global_isOk_iff husable

end Registries

namespace RegistryEdit

open Registries

/-- After any edits of a model without declarations, names are told apart from numbers and
operators unless they are a hyphen, alone or before digits. -/
theorem tellsNamesApart_run (edits : List RegistryEdit) : (run .empty edits).TellsNamesApart :=
  (coherent_run coherent_empty edits).tellsNamesApart

/-- No positive number is written as the hunger of the wolves is, and `-5` may become a name. -/
theorem tellsNamesApart_hungerEdits :
    (∃ token, (Block.new "variable_get" |>.withField "VAR" (.text "Hunger")).WrittenAs
        (run .empty hungerEdits) (.word token) ∧ token ≠ "5" ∧ token ∉ keywords) ∧
    ∃ out, (run .empty hungerEdits).addVariable "-5" .global = .ok out := by
  have htells := tellsNamesApart_run hungerEdits
  have hcapital : fold "Hunger" = "hunger" := by decide +kernel
  have hsmall : fold "hunger" = "hunger" := by decide +kernel
  rw [run_hungerEdits] at htells ⊢
  obtain ⟨token, hwritten, hapart⟩ := htells.written ⟨"variable_get", "VAR", .word⟩ (.head _)
    (Block.new "variable_get" |>.withField "VAR" (.text "Hunger")) "Hunger" rfl rfl
    ⟨"hunger", by decide, sameName_iff.2 (hsmall.trans hcapital.symm)⟩
  refine ⟨⟨token, hwritten, ?_, hapart.keyword⟩, (htells.accepted "-5" (.inr ?_)).2 ?_⟩
  · have hfive := hapart.number (Block.new "math_number" |>.withField "NUM" (.text "5")) rfl
      (by decide +kernel)
    intro htoken
    have hhyphened := (hfive.2 (htoken.trans (by decide +kernel))).1
    exact absurd hhyphened (by decide +kernel)
  · exact ⟨(Binary64.ofNat 5).neg, by decide +kernel, by decide +kernel, by decide +kernel⟩
  · decide +kernel

/-- A variable and a number are written as the same token. -/
theorem not_told_minusFive :
    ¬∀ name ∈ (run .empty [.addVariable "-5" .global]).names, ∀ b c : Block,
      ∀ token text, b.blockType = "variable_get" → b.fieldText? "VAR" = some name →
      c.blockType = "math_number" → (Standard.number c).isFinite = true →
      b.WrittenAs (run .empty [.addVariable "-5" .global]) (.word token) →
      c.WrittenAs (run .empty [.addVariable "-5" .global]) (.word text) → token ≠ text := by
  have hrun : run .empty [.addVariable "-5" .global] = ⟨builtinBreeds, [⟨"-5", .global⟩]⟩ := by
    decide +kernel
  have hr := coherent_run coherent_empty [.addVariable "-5" .global]
  rw [hrun] at hr ⊢
  have hfield : (Block.new "variable_get" |>.withField "VAR" (.text "-5")).fieldText? "VAR" =
      some "-5" := rfl
  have hvariable := hr.variableUse (v := ⟨"-5", .global⟩) (by decide) hfield (sameName_refl _)
    ⟨"variable_get", .word⟩ (.head _)
  have hnumber : Standard.template? "math_number"
      (Block.new "math_number" |>.withField "NUM" (.text "-5"))
      ⟨builtinBreeds, [⟨"-5", .global⟩]⟩ = some (.word "-5") := by
    have htext : (Standard.number
        (Block.new "math_number" |>.withField "NUM" (.text "-5"))).display = "-5" := by
      decide +kernel
    exact congrArg (fun text => some (Template.word text)) htext
  intro htold
  exact htold "-5" (by decide) _ _ "-5" "-5" rfl rfl rfl (by decide +kernel)
    (Block.writtenAs_of_template? hvariable) (Block.writtenAs_of_template? hnumber) rfl

end RegistryEdit

end AgentBlocks
