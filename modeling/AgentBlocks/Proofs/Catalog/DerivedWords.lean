import AgentBlocks.Proofs.Catalog.EndWords
import AgentBlocks.Proofs.Registry.Extent

/-!
Words of the program that are made from the names of a breed, such as `wolves-own`. Those of the
built-in sets are reserved. Those of a declared breed are not: an entry may take each of them as its
name, before or after the breed is declared, unless another entry carries it already.
-/
namespace AgentBlocks

open Text

/-- A word made from a name of a breed, by the texts before and after the name. -/
structure Derivation where
  before : String
  name : Breed → String
  after : String

namespace Derivation

def word (d : Derivation) (b : Breed) : String := d.before ++ d.name b ++ d.after

/-- The text looks like a word made in this way, in any case. -/
def Shapes (d : Derivation) (text : String) : Prop :=
  d.before.toList <+: (fold text).toList ∧ d.after.toList <:+ (fold text).toList

def all : List Derivation :=
  [⟨"", (·.plural), "-own"⟩, ⟨"create-", (·.plural), ""⟩, ⟨"sprout-", (·.plural), ""⟩,
    ⟨"hatch-", (·.plural), ""⟩, ⟨"create-", (·.singular), "-with"⟩,
    ⟨"create-", (·.singular), "-to"⟩, ⟨"create-", (·.singular), "-from"⟩]

end Derivation

/-- The words that are made from the names of a breed. -/
def Breed.derivedWords (b : Breed) : List String := Derivation.all.map (·.word b)

theorem Breed.derivedWords_eq (b : Breed) : b.derivedWords =
    [b.plural ++ "-own", "create-" ++ b.plural, "sprout-" ++ b.plural, "hatch-" ++ b.plural,
      "create-" ++ b.singular ++ "-with", "create-" ++ b.singular ++ "-to",
      "create-" ++ b.singular ++ "-from"] := by
  simp [derivedWords, Derivation.all, Derivation.word]

example : Breed.derivedWords ⟨"wolves", "wolf", .turtle, false⟩ =
    ["wolves-own", "create-wolves", "sprout-wolves", "hatch-wolves", "create-wolf-with",
      "create-wolf-to", "create-wolf-from"] := by decide

/-- The words that are made from the names of the built-in sets and stand alone. -/
def builtinWords : List String :=
  ["turtles-own", "patches-own", "links-own", "create-turtles", "sprout", "hatch"]

theorem toList_fold_append (a b : String) :
    (fold (a ++ b)).toList = (fold a).toList ++ (fold b).toList := by
  simp [fold, String.toList_map]

theorem isValidName_append {a b : String} (ha : isValidName a = true)
    (hb : ∀ c ∈ b.toList, isNamePart c = true) : isValidName (a ++ b) = true := by
  unfold isValidName at ha ⊢
  rw [String.toList_append]
  cases hchars : a.toList with
  | nil =>
      rw [hchars] at ha
      cases ha
  | cons c rest =>
      rw [hchars] at ha
      obtain ⟨hstart, hrest⟩ := Bool.and_eq_true_iff.1 ha
      rw [List.cons_append, isValidNameChars, hstart, List.all_append, hrest,
        List.all_eq_true.2 hb]
      rfl

namespace Derivation

theorem toList_fold_word {d : Derivation} (hd : d ∈ all) (b : Breed) :
    (fold (d.word b)).toList = d.before.toList ++ (fold (d.name b)).toList ++ d.after.toList := by
  have hsmall : ∀ d ∈ all, (fold d.before).toList = d.before.toList ∧
      (fold d.after).toList = d.after.toList := by decide +kernel
  obtain ⟨hbefore, hafter⟩ := hsmall d hd
  rw [word, toList_fold_append, toList_fold_append, hbefore, hafter]

theorem shapes_word {d : Derivation} (hd : d ∈ all) (b : Breed) : d.Shapes (d.word b) := by
  rw [Shapes, toList_fold_word hd, List.append_assoc]
  exact ⟨List.prefix_append _ _, (List.suffix_append _ _).trans (List.suffix_append _ _)⟩

theorem isValidName_word {d : Derivation} (hd : d ∈ all) {b : Breed}
    (h : isValidName (d.name b) = true) : isValidName (d.word b) = true := by
  have hforms : ∀ d ∈ all, (d.before = "" ∨ isValidName d.before = true) ∧
      d.after.toList.all isNamePart = true := by decide
  obtain ⟨hbefore, hafter⟩ := hforms d hd
  refine isValidName_append ?_ (List.all_eq_true.1 hafter)
  rcases hbefore with hempty | hbefore
  · rwa [hempty, String.empty_append]
  · exact isValidName_append hbefore (Outline.isNamePart_of_isValidName h)

/-- A reserved word of such a form is made from the plural of a built-in set. -/
theorem middle_of_reserved {d : Derivation} (hd : d ∈ all) {text : String}
    (htext : text ∈ reservedWords) {middle : List Char}
    (h : text.toList = d.before.toList ++ middle ++ d.after.toList) :
    String.ofList middle ∈ Registries.empty.names.map fold := by
  -- what is left of a reserved word when the texts before and after are cut off
  have hmiddles : ∀ d ∈ all, ∀ text ∈ reservedWords,
      d.before.toList <+: text.toList → d.after.toList <:+ text.toList →
      String.ofList ((text.toList.drop d.before.toList.length).take
        (text.toList.length - d.before.toList.length - d.after.toList.length)) ∈
          Registries.empty.names.map fold := by
    decide +kernel
  have hbefore : d.before.toList <+: text.toList := by
    rw [h, List.append_assoc]
    exact List.prefix_append _ _
  have hafter : d.after.toList <:+ text.toList := by
    rw [h]
    exact List.suffix_append _ _
  have hmiddle := hmiddles d hd text htext hbefore hafter
  simpa [h, Nat.add_sub_cancel_left, Nat.add_sub_cancel] using hmiddle

end Derivation

namespace Standard

/-- The blocks that print a word made from the names of a breed. -/
def makingBlocks : List String :=
  ["agent_create", "agent_sprout", "agent_hatch", "agent_create_link"]

/-- A command that makes agents of a breed begins with one of its words. -/
theorem line_breedUse {b : Breed} (hplural : b.plural ≠ "turtles") (requested : String) :
    ∀ use ∈ breedUses, use.type ∈ makingBlocks → ∃ word ∈ b.derivedWords, ∃ rest,
      (use.template (use.name b) b.kind requested).line = .text (word ++ " ") :: rest := by
  have hdirection : directionFor b.kind requested ∈ ["with", "to", "from"] := by
    unfold directionFor
    split
    · split <;> simp
    · simp
  have hlink : "create-" ++ b.singular ++ "-" ++ directionFor b.kind requested ∈
      b.derivedWords := by
    simp only [List.mem_cons, List.not_mem_nil, or_false] at hdirection
    rcases hdirection with h | h | h <;> simp [h, b.derivedWords_eq, String.append_assoc]
  simp only [breedUses, List.forall_mem_cons]
  refine ⟨by simp [makingBlocks], fun _ => ⟨"create-" ++ b.plural, ?_, _, rfl⟩,
    fun _ => ⟨"sprout-" ++ b.plural, ?_, [.value "COUNT" (.upTo .functionCall)], ?_⟩,
    fun _ => ⟨"hatch-" ++ b.plural, ?_, [.value "COUNT" (.upTo .functionCall)], ?_⟩,
    by simp [makingBlocks], fun _ => ⟨_, hlink, _, rfl⟩, List.forall_mem_nil _⟩
  · simp [b.derivedWords_eq]
  · simp [b.derivedWords_eq]
  · rw [bareForTurtles, if_neg hplural]
    rfl
  · simp [b.derivedWords_eq]
  · rw [bareForTurtles, if_neg hplural]
    rfl

end Standard

namespace Registries

variable {r : Registries}

/-- Words made from the names of a declared breed are in the program, and they are names like any
other. A live name that has none of their forms differs from all of them. -/
structure LeavesWordsOpen (r : Registries) : Prop where
  owns : ∀ b ∈ r.customBreeds, ∀ v ∈ r.vars, v.scope = .breed b.plural →
    ∃ d ∈ r.declared, d.head ∈ b.derivedWords ∧ v.name ∈ d.names
  makes : ∀ b ∈ r.customBreeds, ∀ use ∈ Standard.breedUses, use.type ∈ Standard.makingBlocks →
    ∀ block : Block, ∀ text, block.blockType = use.type → block.fieldText? "BREED" = some text →
      b.answersTo text = true → ∃ word ∈ b.derivedWords, ∃ t rest, block.WrittenAs r t ∧
        t.line = .text (word ++ " ") :: rest
  builtin : ∀ name ∈ r.names, fold name ∉ builtinWords
  apart : ∀ name ∈ r.names, (∀ d ∈ Derivation.all, ¬d.Shapes name) →
    ∀ b ∈ r.customBreeds, ∀ word ∈ b.derivedWords, fold name ≠ fold word
  accepted : ∀ b ∈ r.customBreeds, ∀ word ∈ b.derivedWords, Usable word ∧
    ((∃ out, r.addVariable word .global = .ok out) ↔ ∀ name ∈ r.names, fold name ≠ fold word)

section Coherent

variable (hr : r.Coherent)
include hr

theorem Coherent.usable_derivedWord {b : Breed} (hb : b ∈ r.customBreeds) {word : String}
    (hword : word ∈ b.derivedWords) : Usable word := by
  obtain ⟨d, hd, rfl⟩ := List.mem_map.1 hword
  have hfrom : ∀ d ∈ Derivation.all, d.name b ∈ [b.plural, b.singular] := by
    simp [Derivation.all]
  have hname : Usable (d.name b) := by
    rcases List.mem_pair.1 (hfrom d hd) with h | h
    · exact h ▸ (hr.breeds b hb).plural
    · exact h ▸ (hr.breeds b hb).singular
  refine ⟨Derivation.isValidName_word hd hname.1, ?_⟩
  rw [isReservedWord, Bool.eq_false_iff, ne_eq, List.contains_iff_mem]
  intro hreserved
  have hmiddle := Derivation.middle_of_reserved hd hreserved (Derivation.toList_fold_word hd b)
  rw [String.ofList_toList] at hmiddle
  exact hr.fold_not_mem_builtin hb (hfrom d hd) hmiddle

theorem Coherent.fold_not_mem_builtinWords {name : String} (hname : name ∈ r.names) :
    fold name ∉ builtinWords := by
  have hreserved : ∀ word ∈ builtinWords, reservedWords.contains word = true := by decide
  intro hmem
  have hfree := (hr.usable_name hname).2
  rw [isReservedWord, hreserved _ hmem] at hfree
  cases hfree

theorem Coherent.leavesWordsOpen : r.LeavesWordsOpen where
  owns b hb v hv hscope := by
    have howner : Declaration.holder v.scope = some b.plural := by rw [hscope]; rfl
    obtain ⟨names, hline, hname⟩ := r.mem_declared.2.2 v hv b.plural howner
    refine ⟨_, hline, ?_, hname⟩
    simp [Declaration.head, b.derivedWords_eq]
  makes b hb use huse hmakes block text htype htext hanswers := by
    have hplural : b.plural ≠ "turtles" := fun h => hr.plural_ne_builtin hb (by simp [h])
    obtain ⟨word, hword, rest, hline⟩ :=
      Standard.line_breedUse hplural (block.fieldOr "DIRECTION" "with") use huse hmakes
    exact ⟨word, hword, _, rest, hr.writesDeclaredNames.writesBreed use huse b
      (List.mem_filter.1 hb).1 block text htype htext hanswers, hline⟩
  builtin _ hname := hr.fold_not_mem_builtinWords hname
  apart name hname hshapeless b hb word hword hsame := by
    obtain ⟨d, hd, rfl⟩ := List.mem_map.1 hword
    have hshapes := Derivation.shapes_word hd b
    rw [Derivation.Shapes, ← hsame] at hshapes
    exact hshapeless d hd hshapes
  accepted b hb word hword := by
    have husable := hr.usable_derivedWord hb hword
    exact ⟨husable, hr.addVariable_global_isOk_iff husable⟩

end Coherent

end Registries

namespace RegistryEdit

open Registries

/-- After any edits of a model without declarations, the words made from the names of a declared
breed are left to other entries. -/
theorem leavesWordsOpen_run (edits : List RegistryEdit) : (run .empty edits).LeavesWordsOpen :=
  (coherent_run coherent_empty edits).leavesWordsOpen

/-- The word before the variables of the wolves may be the name of a variable too. -/
theorem leavesWordsOpen_hungerEdits :
    (∃ d ∈ (run .empty hungerEdits).declared,
      d.head ∈ ["wolves-own", "create-wolves", "sprout-wolves", "hatch-wolves", "create-wolf-with",
        "create-wolf-to", "create-wolf-from"] ∧ "hunger" ∈ d.names) ∧
    ∃ out, (run .empty hungerEdits).addVariable "wolves-own" .global = .ok out := by
  have hopen := leavesWordsOpen_run hungerEdits
  rw [run_hungerEdits] at hopen ⊢
  have hbreed : ⟨"wolves", "wolf", .turtle, false⟩ ∈ customBreeds
      ⟨builtinBreeds ++ [⟨"wolves", "wolf", .turtle, false⟩],
        [⟨"hunger", .breed "wolves"⟩, ⟨"rate", .global⟩]⟩ := by decide
  refine ⟨hopen.owns _ hbreed ⟨"hunger", .breed "wolves"⟩ (by decide) rfl, ?_⟩
  exact (hopen.accepted _ hbreed "wolves-own" (by decide)).2.2 (by decide +kernel)

/-- A live name is a word made from the name of a breed. -/
theorem not_apart_wolvesOwn :
    ¬∀ b ∈ (run .empty [.addBreed "wolves" "wolf" .turtle, .addVariable "wolves-own"
        .global]).customBreeds, ∀ word ∈ b.derivedWords,
      ∀ name ∈ (run .empty [.addBreed "wolves" "wolf" .turtle, .addVariable "wolves-own"
        .global]).names, fold name ≠ fold word := by
  have hrun : run .empty [.addBreed "wolves" "wolf" .turtle, .addVariable "wolves-own" .global] =
      ⟨builtinBreeds ++ [⟨"wolves", "wolf", .turtle, false⟩], [⟨"wolves-own", .global⟩]⟩ := by
    decide +kernel
  rw [hrun]
  intro hapart
  exact hapart ⟨"wolves", "wolf", .turtle, false⟩ (by decide) "wolves-own" (by decide) "wolves-own"
    (by decide) rfl

end RegistryEdit

end AgentBlocks
