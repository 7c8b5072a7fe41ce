import AgentBlocks.Proofs.Registry.Persistence

/-!
New names of entries. A name is accepted exactly when it is usable and no other entry carries it
now, in any case; nothing is left behind by names that were given up.
-/
namespace AgentBlocks

open Text

theorem toNat_toLower (c : Char) :
    c.toLower.toNat = if 65 ≤ c.toNat ∧ c.toNat ≤ 90 then c.toNat + 32 else c.toNat := by
  have hupper : (c.val ≥ 'A'.val ∧ c.val ≤ 'Z'.val) ↔ 65 ≤ c.toNat ∧ c.toNat ≤ 90 := by
    rw [ge_iff_le, UInt32.le_iff_toNat_le, UInt32.le_iff_toNat_le]
    rfl
  unfold Char.toLower
  split
  · rename_i h
    have hcode := hupper.1 h
    rw [if_pos hcode]
    change (c.val + 32).toNat = c.val.toNat + 32
    rw [UInt32.toNat_add]
    have : c.val.toNat ≤ 90 := hcode.2
    have h32 : (32 : UInt32).toNat = 32 := rfl
    omega
  · rename_i h
    rw [if_neg (mt hupper.2 h)]

theorem isNameStart_iff {c : Char} : isNameStart c = true ↔ (65 ≤ c.toNat ∧ c.toNat ≤ 90) ∨
    (97 ≤ c.toNat ∧ c.toNat ≤ 122) ∨ c.toNat = 95 ∨ c.toNat = 45 := by
  have hcode : ∀ d : Char, c = d ↔ c.toNat = d.toNat := fun d => ⟨congrArg _, Char.toNat_inj.1⟩
  simp only [isNameStart, isNameLetter, Bool.or_eq_true, Bool.and_eq_true, decide_eq_true_eq,
    beq_iff_eq, Char.le_def, UInt32.le_iff_toNat_le, hcode]
  rw [or_assoc, or_assoc]
  rfl

/-- The case of the letters has no part in the form of a name. -/
theorem isNameStart_toLower (c : Char) : isNameStart c.toLower = isNameStart c := by
  rw [Bool.eq_iff_iff, isNameStart_iff, isNameStart_iff, toNat_toLower]
  split <;> omega

theorem isNamePart_toLower (c : Char) : isNamePart c.toLower = isNamePart c := by
  have hdigit : ∀ d : Char, (decide ('0' ≤ d) && decide (d ≤ '9')) = true ↔
      48 ≤ d.toNat ∧ d.toNat ≤ 57 := by
    intro d
    simp only [Bool.and_eq_true, decide_eq_true_eq, Char.le_def, UInt32.le_iff_toNat_le]
    rfl
  rw [Bool.eq_iff_iff, isNamePart, isNamePart, Bool.or_eq_true, Bool.or_eq_true,
    isNameStart_toLower, hdigit, hdigit, toNat_toLower, isNameStart_iff]
  split <;> omega

theorem isValidName_fold (s : String) : isValidName (fold s) = isValidName s := by
  unfold isValidName fold
  rw [String.toList_map]
  cases s.toList with
  | nil => rfl
  | cons c rest =>
      simp only [List.map_cons, isValidNameChars, isNameStart_toLower, List.all_map,
        Function.comp_def, isNamePart_toLower]

theorem Usable.of_fold_eq {a b : String} (h : Usable a) (hsame : fold a = fold b) : Usable b := by
  refine ⟨?_, ?_⟩
  · rw [← isValidName_fold, ← hsame, isValidName_fold]
    exact h.1
  · rw [isReservedWord, ← hsame]
    exact h.2

/-- An entry may take the name beside entries with the given names. -/
def FreeBeside (others : List String) (name : String) : Prop :=
  Usable name ∧ ∀ used ∈ others, fold used ≠ fold name

namespace Registries

variable {r r' : Registries} {events : List RegistryEvent}

/-- The names of all entries but a breed. -/
def namesBesideBreed (r : Registries) (b : Breed) : List String :=
  names ⟨r.breeds.filter (· ≠ b), r.vars⟩

/-- The names of all entries but a variable. -/
def namesBesideVariable (r : Registries) (v : Variable) : List String :=
  names ⟨r.breeds, r.vars.filter (· ≠ v)⟩

/-- Exactly the names that are free beside the other entries are taken. -/
structure TakesFreeNames (r : Registries) : Prop where
  addBreed : ∀ plural singular kind, kind ≠ .patch →
    ((∃ out, r.addBreed plural singular kind = .ok out) ↔
      FreeBeside r.names plural ∧ FreeBeside r.names singular ∧ fold plural ≠ fold singular)
  addVariable : ∀ name scope,
    (∀ owner, scope = .breed owner → ∃ b ∈ r.customBreeds, fold b.plural = fold owner) →
    ((∃ out, r.addVariable name scope = .ok out) ↔ FreeBeside r.names name)
  renameBreed : ∀ b ∈ r.customBreeds, ∀ old, b.answersTo old = true → ∀ plural singular,
    ((∃ out, r.renameBreed old plural singular = .ok out) ↔
      FreeBeside (r.namesBesideBreed b) plural ∧ FreeBeside (r.namesBesideBreed b) singular ∧
        fold plural ≠ fold singular)
  renameVariable : ∀ v ∈ r.vars, ∀ old, fold v.name = fold old → ∀ new,
    ((∃ out, r.renameVariable old new = .ok out) ↔ FreeBeside (r.namesBesideVariable v) new)

/-- An entry may take its own names in another case, and a breed may change them over. -/
structure Respells (r : Registries) : Prop where
  breeds : ∀ b ∈ r.customBreeds, ∀ old, b.answersTo old = true → ∀ plural singular,
    (fold plural = fold b.plural ∧ fold singular = fold b.singular) ∨
      (fold plural = fold b.singular ∧ fold singular = fold b.plural) →
    ∃ out, r.renameBreed old plural singular = .ok out
  vars : ∀ v ∈ r.vars, ∀ old, fold v.name = fold old → ∀ new, fold new = fold v.name →
    ∃ out, r.renameVariable old new = .ok out

/-- Names that entries give up are free at once, those of the variables that go with a breed
included. -/
structure Releases (r : Registries) : Prop where
  removeBreed : ∀ b ∈ r.customBreeds, ∀ old, b.answersTo old = true →
    ∃ r' events, r.removeBreed old = .ok (r', events) ∧
      FreeBeside r'.names b.plural ∧ FreeBeside r'.names b.singular ∧
      ∀ v ∈ r.vars, v.scope = .breed b.plural → FreeBeside r'.names v.name
  removeVariable : ∀ v ∈ r.vars, ∀ old, fold v.name = fold old →
    ∃ r' events, r.removeVariable old = .ok (r', events) ∧ FreeBeside r'.names v.name
  renameBreed : ∀ b ∈ r.customBreeds, ∀ old, b.answersTo old = true →
    ∀ plural singular r' events, r.renameBreed old plural singular = .ok (r', events) →
    ∀ name ∈ [b.plural, b.singular], fold plural ≠ fold name → fold singular ≠ fold name →
      FreeBeside r'.names name
  renameVariable : ∀ v ∈ r.vars, ∀ old, fold v.name = fold old → ∀ new r' events,
    r.renameVariable old new = .ok (r', events) → fold new ≠ fold v.name →
      FreeBeside r'.names v.name
  reset : (∀ b ∈ r.customBreeds,
      FreeBeside r.reset.1.names b.plural ∧ FreeBeside r.reset.1.names b.singular) ∧
    ∀ v ∈ r.vars, FreeBeside r.reset.1.names v.name
  edit : ∀ (edit : RegistryEdit), ∀ name ∈ r.names,
    (∀ used ∈ (edit.apply r).names, fold used ≠ fold name) →
      FreeBeside (edit.apply r).names name

theorem ne_of_perm {own rest : List String} (hperm : r.names.Perm (own ++ rest))
    (hdistinct : (r.names.map fold).Nodup) {name used : String} (hname : name ∈ own)
    (hused : used ∈ rest) : fold used ≠ fold name := by
  have hnodup := (hperm.map fold).nodup_iff.1 hdistinct
  rw [List.map_append, List.nodup_append] at hnodup
  intro hsame
  exact hnodup.2.2 _ (List.mem_map_of_mem hname) _ (List.mem_map_of_mem hused) hsame.symm

/-- What an entry owns already is no obstacle, and nothing else is passed over. -/
theorem free_iff_beside {own rest : List String} (hperm : r.names.Perm (own ++ rest))
    (hdistinct : (r.names.map fold).Nodup) (name : String) :
    (∀ used ∈ r.names, fold used = fold name → fold used ∈ own.map fold) ↔
      ∀ used ∈ rest, fold used ≠ fold name := by
  constructor
  · intro h used hused hsame
    obtain ⟨owned, howned, howner⟩ :=
      List.mem_map.1 (h used (hperm.mem_iff.2 (List.mem_append_right _ hused)) hsame)
    exact ne_of_perm hperm hdistinct howned hused howner.symm
  · intro hfree used hused hsame
    rcases List.mem_append.1 (hperm.mem_iff.1 hused) with hown | hrest
    · exact List.mem_map_of_mem hown
    · exact absurd hsame (hfree used hrest)

theorem admits_iff_freeBeside {own rest : List String} (hperm : r.names.Perm (own ++ rest))
    (hdistinct : (r.names.map fold).Nodup) {name : String} :
    r.Admits own name ↔ FreeBeside rest name := by
  have hfree := free_iff_beside hperm hdistinct name
  exact ⟨fun h => ⟨h.usable, hfree.1 h.free⟩, fun h => ⟨h.1.1, hfree.2 h.2, h.1.2⟩⟩

theorem filter_ne_middle {α : Type} [DecidableEq α] {before after : List α} {a : α}
    (h : (before ++ a :: after).Nodup) :
    (before ++ a :: after).filter (· ≠ a) = before ++ after := by
  obtain ⟨-, hafter, hbefore⟩ := List.nodup_append.1 h
  have hkept : ∀ l : List α, a ∉ l → l.filter (· ≠ a) = l := by
    intro l ha
    rw [List.filter_eq_self]
    intro c hc
    simpa using fun heq : c = a => ha (heq ▸ hc)
  rw [List.filter_append, List.filter_cons_of_neg (by simp),
    hkept before fun ha => hbefore a ha a List.mem_cons_self rfl,
    hkept after (List.nodup_cons.1 hafter).1]

theorem answersTo_iff {b : Breed} {name : String} :
    b.answersTo name = true ↔ ∃ own ∈ [b.plural, b.singular], fold own = fold name := by
  rw [Breed.answersTo, Bool.or_eq_true, sameName_iff, sameName_iff]
  simp

theorem Coherent.nodup_breeds (hr : r.Coherent) : r.breeds.Nodup :=
  (hr.distinct.sublist ((plurals_sublist r.breeds r.vars).map fold)).of_map.of_map

/-- A name that a breed answers to leads to it, since no other breed answers to the name. -/
theorem Coherent.locate?_breed (hr : r.Coherent) {before after : List Breed} {b : Breed}
    (hsplit : r.breeds = before ++ b :: after) {name : String}
    (hanswers : b.answersTo name = true) :
    locate? (·.answersTo name) r.breeds = some (before, b, after) := by
  have hperm := names_breed_perm before after b r.vars
  rw [← hsplit] at hperm
  have hbefore : ∀ c ∈ before, c.answersTo name = false := by
    intro c hc
    obtain ⟨own, hown, howner⟩ := answersTo_iff.1 hanswers
    rw [← Bool.not_eq_true, answersTo_iff]
    rintro ⟨used, hused, hsame⟩
    have hrest : used ∈ names ⟨before ++ after, r.vars⟩ :=
      List.mem_append_left _ (List.mem_flatMap.2 ⟨c, List.mem_append_left _ hc, hused⟩)
    exact ne_of_perm hperm hr.distinct hown hrest (hsame.trans howner.symm)
  rw [hsplit]
  exact locate?_append_cons after hbefore hanswers

theorem Coherent.locateBreed_of_split (hr : r.Coherent) {before after : List Breed} {b : Breed}
    (hsplit : r.breeds = before ++ b :: after) (hcustom : b.builtin = false) {name : String}
    (hanswers : b.answersTo name = true) : r.locateBreed name = .ok (before, b, after) := by
  simp only [locateBreed, hr.locate?_breed hsplit hanswers, hcustom, Bool.false_eq_true, if_false]

/-- The place of a declared breed, with the names of all the others. -/
theorem Coherent.exists_locateBreed {b : Breed} (hr : r.Coherent) (hb : b ∈ r.customBreeds)
    {name : String} (hanswers : b.answersTo name = true) :
    ∃ before after, r.locateBreed name = .ok (before, b, after) ∧
      r.names.Perm ([b.plural, b.singular] ++ names ⟨before ++ after, r.vars⟩) ∧
      r.namesBesideBreed b = names ⟨before ++ after, r.vars⟩ := by
  obtain ⟨hmem, -⟩ := List.mem_filter.1 hb
  obtain ⟨before, after, hsplit⟩ := List.append_of_mem hmem
  have hperm := names_breed_perm before after b r.vars
  rw [← hsplit] at hperm
  refine ⟨before, after, hr.locateBreed_of_split hsplit (hr.breeds b hb).custom hanswers, hperm, ?_⟩
  have hnodup := hr.nodup_breeds
  rw [hsplit] at hnodup
  rw [namesBesideBreed, hsplit, filter_ne_middle hnodup]

/-- The name of a variable leads to it, since no other variable has the name. -/
theorem Coherent.locate?_variable (hr : r.Coherent) {before after : List Variable} {v : Variable}
    (hsplit : r.vars = before ++ v :: after) {name : String} (hsame : fold v.name = fold name) :
    locate? (fun v => sameName v.name name) r.vars = some (before, v, after) := by
  have hperm := names_variable_perm r.breeds before after v
  rw [← hsplit] at hperm
  have hbefore : ∀ w ∈ before, sameName w.name name = false := by
    intro w hw
    have hmem : w.name ∈ names ⟨r.breeds, before ++ after⟩ :=
      List.mem_append_right _ (List.mem_map_of_mem (List.mem_append_left _ hw))
    have hne := ne_of_perm hperm hr.distinct (List.mem_singleton_self v.name) hmem
    rw [← Bool.not_eq_true, sameName_iff, ← hsame]
    exact hne
  rw [hsplit]
  exact locate?_append_cons after hbefore (sameName_iff.2 hsame)

theorem Coherent.locateVariable_of_split (hr : r.Coherent) {before after : List Variable}
    {v : Variable} (hsplit : r.vars = before ++ v :: after) {name : String}
    (hsame : fold v.name = fold name) : r.locateVariable name = .ok (before, v, after) := by
  simp only [locateVariable, hr.locate?_variable hsplit hsame]

theorem Coherent.exists_locateVariable {v : Variable} (hr : r.Coherent) (hv : v ∈ r.vars)
    {name : String} (hsame : fold v.name = fold name) :
    ∃ before after, r.locateVariable name = .ok (before, v, after) ∧
      r.names.Perm ([v.name] ++ names ⟨r.breeds, before ++ after⟩) ∧
      r.namesBesideVariable v = names ⟨r.breeds, before ++ after⟩ := by
  obtain ⟨before, after, hsplit⟩ := List.append_of_mem hv
  have hperm := names_variable_perm r.breeds before after v
  rw [← hsplit] at hperm
  refine ⟨before, after, hr.locateVariable_of_split hsplit hsame, hperm, ?_⟩
  have hnodup : r.vars.Nodup := hr.nodup_varNames.of_map
  rw [hsplit] at hnodup
  rw [namesBesideVariable, hsplit, filter_ne_middle hnodup]

theorem admits_nil_iff (hdistinct : (r.names.map fold).Nodup) {name : String} :
    r.Admits [] name ↔ FreeBeside r.names name := by
  have hperm : r.names.Perm ([] ++ r.names) := .refl _
  exact admits_iff_freeBeside hperm hdistinct

theorem addBreed_isOk_iff {plural singular : String} {kind : BreedKind} (hkind : kind ≠ .patch) :
    (∃ out, r.addBreed plural singular kind = .ok out) ↔
      r.checkBreedNames [] plural singular = .ok () := by
  constructor
  · rintro ⟨⟨r', events⟩, h⟩
    exact (addBreed_eq_ok h).2.1
  · intro h
    rw [addBreed, if_neg hkind, h]
    exact ⟨_, rfl⟩

theorem addVariable_isOk_iff {name : String} {scope scope' : Scope}
    (hscope : r.resolveScope scope = .ok scope') :
    (∃ out, r.addVariable name scope = .ok out) ↔ r.checkName [] name = .ok () := by
  constructor
  · rintro ⟨⟨r', events⟩, h⟩
    obtain ⟨-, hname, -⟩ := addVariable_eq_ok h
    exact hname
  · intro h
    rw [addVariable, h, hscope]
    exact ⟨_, rfl⟩

theorem renameBreed_isOk_iff {old plural singular : String} {before after : List Breed} {b : Breed}
    (hlocate : r.locateBreed old = .ok (before, b, after)) :
    (∃ out, r.renameBreed old plural singular = .ok out) ↔
      r.checkBreedNames [b.plural, b.singular] plural singular = .ok () := by
  constructor
  · rintro ⟨⟨r', events⟩, h⟩
    obtain ⟨before', b', after', hlocate', hnames, -⟩ := renameBreed_eq_ok h
    rw [hlocate] at hlocate'
    cases hlocate'
    exact hnames
  · intro h
    exact ⟨_, renameBreed_of_check hlocate h⟩

theorem renameVariable_isOk_iff {old new : String} {before after : List Variable} {v : Variable}
    (hlocate : r.locateVariable old = .ok (before, v, after)) :
    (∃ out, r.renameVariable old new = .ok out) ↔ r.checkName [v.name] new = .ok () := by
  constructor
  · rintro ⟨⟨r', events⟩, h⟩
    obtain ⟨before', v', after', hlocate', hname, -⟩ := renameVariable_eq_ok h
    rw [hlocate] at hlocate'
    cases hlocate'
    exact hname
  · intro h
    exact ⟨_, renameVariable_of_check hlocate h⟩

/-- A scope is resolved when its owner is the plural of a declared breed. -/
theorem exists_resolveScope {scope : Scope}
    (h : ∀ owner, scope = .breed owner → ∃ b ∈ r.customBreeds, fold b.plural = fold owner) :
    ∃ scope', r.resolveScope scope = .ok scope' := by
  cases scope with
  | breed owner =>
      obtain ⟨b, hb, hsame⟩ := h owner rfl
      obtain ⟨hmem, hcustom⟩ := List.mem_filter.1 hb
      have hfound : (r.breeds.find? fun b => !b.builtin && sameName b.plural owner).isSome := by
        refine List.find?_isSome.2 ⟨b, hmem, ?_⟩
        rw [hcustom, sameName_iff.2 hsame]
        rfl
      obtain ⟨c, hc⟩ := Option.isSome_iff_exists.1 hfound
      exact ⟨.breed c.plural, by simp only [resolveScope, hc]⟩
  | global => exact ⟨_, rfl⟩
  | turtles => exact ⟨_, rfl⟩
  | patches => exact ⟨_, rfl⟩
  | links => exact ⟨_, rfl⟩

theorem Coherent.takesFreeNames (hr : r.Coherent) : r.TakesFreeNames := by
  refine ⟨?_, ?_, ?_, ?_⟩
  · intro plural singular kind hkind
    rw [addBreed_isOk_iff hkind, checkBreedNames_eq_ok, admits_nil_iff hr.distinct,
      admits_nil_iff hr.distinct]
  · intro name scope howner
    obtain ⟨scope', hscope⟩ := exists_resolveScope howner
    rw [addVariable_isOk_iff hscope, checkName_eq_ok, admits_nil_iff hr.distinct]
  · intro b hb old hanswers plural singular
    obtain ⟨before, after, hlocate, hperm, hbeside⟩ := hr.exists_locateBreed hb hanswers
    rw [renameBreed_isOk_iff hlocate, checkBreedNames_eq_ok, hbeside,
      admits_iff_freeBeside hperm hr.distinct, admits_iff_freeBeside hperm hr.distinct]
  · intro v hv old hsame new
    obtain ⟨before, after, hlocate, hperm, hbeside⟩ := hr.exists_locateVariable hv hsame
    rw [renameVariable_isOk_iff hlocate, checkName_eq_ok, hbeside,
      admits_iff_freeBeside hperm hr.distinct]

/-- A usable name is taken by a global variable exactly when it is not in use. -/
theorem Coherent.addVariable_global_isOk_iff (hr : r.Coherent) {name : String}
    (husable : Usable name) :
    (∃ out, r.addVariable name .global = .ok out) ↔ ∀ used ∈ r.names, fold used ≠ fold name := by
  have hglobal : ∀ owner, Scope.global = .breed owner →
      ∃ b ∈ r.customBreeds, fold b.plural = fold owner := by
    intro owner howner
    cases howner
  exact (hr.takesFreeNames.addVariable name .global hglobal).trans (and_iff_right husable)

/-- Every name but those of the built-in breeds is usable. -/
theorem Coherent.usable_of_mem (hr : r.Coherent) {name : String} (hname : name ∈ r.names) :
    name ∈ empty.names ∨ Usable name := by
  rcases List.mem_append.1 hname with hname | hname
  · rw [hr.builtins, List.flatMap_append, List.mem_append] at hname
    refine hname.imp (List.mem_append_left _) fun hname => ?_
    obtain ⟨b, hb, hname⟩ := List.mem_flatMap.1 hname
    rcases List.mem_pair.1 hname with rfl | rfl
    · exact (hr.breeds b hb).plural
    · exact (hr.breeds b hb).singular
  · obtain ⟨v, hv, rfl⟩ := List.mem_map.1 hname
    exact .inr (hr.vars v hv)

/-- Every name that is carried has the form of a name and is no word of the language. -/
theorem Coherent.usable_name (hr : r.Coherent) {name : String} (hname : name ∈ r.names) :
    Usable name := by
  have hbuiltin : ∀ name ∈ empty.names, isValidName name = true ∧ isReservedWord name = false := by
    decide +kernel
  exact (hr.usable_of_mem hname).elim (hbuiltin name) id

/-- The names of the built-in breeds are never given up. -/
theorem Coherent.names_empty_subset (hr : r.Coherent) : empty.names ⊆ r.names := by
  intro name hname
  have hbuiltin : name ∈ builtinBreeds.flatMap fun b => [b.plural, b.singular] := by
    simpa [names, empty] using hname
  rw [names, hr.builtins, List.flatMap_append, List.append_assoc]
  exact List.mem_append_left _ hbuiltin

/-- A name is free again when no entry carries it any more. -/
theorem Coherent.freeBeside (hr : r.Coherent) (hr' : r'.Coherent) {name : String}
    (hname : name ∈ r.names) (habsent : ∀ used ∈ r'.names, fold used ≠ fold name) :
    FreeBeside r'.names name := by
  rcases hr.usable_of_mem hname with hbuiltin | husable
  · exact absurd rfl (habsent name (hr'.names_empty_subset hbuiltin))
  · exact ⟨husable, habsent⟩

theorem Coherent.freeBeside_of_perm (hr : r.Coherent) (hr' : r'.Coherent) {own rest : List String}
    (hperm : r.names.Perm (own ++ rest)) (hrest : r'.names ⊆ rest) :
    ∀ name ∈ own, FreeBeside r'.names name := by
  intro name hname
  refine hr.freeBeside hr' (hperm.mem_iff.2 (List.mem_append_left _ hname)) fun used hused => ?_
  exact ne_of_perm hperm hr.distinct hname (hrest hused)

theorem freeBeside_respelled {own rest : List String} (hperm : r.names.Perm (own ++ rest))
    (hdistinct : (r.names.map fold).Nodup) {name new : String} (husable : Usable name)
    (hname : name ∈ own) (hsame : fold new = fold name) : FreeBeside rest new := by
  refine ⟨husable.of_fold_eq hsame.symm, fun used hused => ?_⟩
  rw [hsame]
  exact ne_of_perm hperm hdistinct hname hused

theorem Coherent.plural_ne_singular (hr : r.Coherent) {b : Breed} (hb : b ∈ r.customBreeds) :
    fold b.plural ≠ fold b.singular := by
  obtain ⟨before, after, hsplit⟩ := List.append_of_mem (List.mem_of_mem_filter hb)
  have hperm := names_breed_perm before after b r.vars
  rw [← hsplit] at hperm
  have hnodup := (hperm.map fold).nodup_iff.1 hr.distinct
  simp only [List.cons_append, List.map_cons, List.nodup_cons, List.mem_cons, not_or] at hnodup
  exact hnodup.1.1

theorem Coherent.respells (hr : r.Coherent) : r.Respells := by
  refine ⟨?_, ?_⟩
  · intro b hb old hanswers plural singular hnames
    obtain ⟨before, after, -, hperm, hbeside⟩ := hr.exists_locateBreed hb hanswers
    have hne := hr.plural_ne_singular hb
    have hdeclared := hr.breeds b hb
    have hplural : ∀ {new}, fold new = fold b.plural → FreeBeside (r.namesBesideBreed b) new :=
      fun hsame => hbeside ▸
        freeBeside_respelled hperm hr.distinct hdeclared.plural (by simp) hsame
    have hsingular : ∀ {new}, fold new = fold b.singular → FreeBeside (r.namesBesideBreed b) new :=
      fun hsame => hbeside ▸
        freeBeside_respelled hperm hr.distinct hdeclared.singular (by simp) hsame
    refine (hr.takesFreeNames.renameBreed b hb old hanswers plural singular).2 ?_
    rcases hnames with ⟨hfirst, hsecond⟩ | ⟨hfirst, hsecond⟩
    · exact ⟨hplural hfirst, hsingular hsecond, by rwa [hfirst, hsecond]⟩
    · exact ⟨hsingular hfirst, hplural hsecond, by rw [hfirst, hsecond]; exact hne.symm⟩
  · intro v hv old hsame new hnew
    obtain ⟨before, after, -, hperm, hbeside⟩ := hr.exists_locateVariable hv hsame
    refine (hr.takesFreeNames.renameVariable v hv old hsame new).2 (hbeside ▸ ?_)
    exact freeBeside_respelled hperm hr.distinct (hr.vars v hv) (by simp) hnew

/-- The names of a breed and of the variables that it owns are those that go with it. -/
theorem names_removed_perm (before after : List Breed) (b : Breed) (vars : List Variable)
    (p : Variable → Bool) :
    (names ⟨before ++ b :: after, vars⟩).Perm
      (([b.plural, b.singular] ++ (vars.filter p).map (·.name)) ++
        names ⟨before ++ after, vars.filter fun v => !p v⟩) := by
  have hvars := (List.filter_append_perm p vars).map (·.name)
  refine (names_breed_perm before after b vars).trans ?_
  rw [List.append_assoc]
  refine List.Perm.append_left _ ?_
  rw [List.perm_iff_count] at hvars ⊢
  intro name
  have hcount := hvars name
  simp only [names, List.map_append, List.count_append] at hcount ⊢
  omega

theorem Coherent.release_removeBreed (hr : r.Coherent) {b : Breed} (hb : b ∈ r.customBreeds)
    {old : String} (hanswers : b.answersTo old = true) :
    ∃ r' events, r.removeBreed old = .ok (r', events) ∧
      FreeBeside r'.names b.plural ∧ FreeBeside r'.names b.singular ∧
      ∀ v ∈ r.vars, v.scope = .breed b.plural → FreeBeside r'.names v.name := by
  obtain ⟨before, after, hlocate, -, -⟩ := hr.exists_locateBreed hb hanswers
  obtain ⟨hsplit, -, -⟩ := Registries.locateBreed_eq_ok hlocate
  have hremoved : r.removeBreed old = .ok (⟨before ++ after,
      r.vars.filter fun v => !v.scope.isOwnedBy b.plural⟩,
      (r.vars.filter (·.scope.isOwnedBy b.plural)).map (fun v => .removed .vars v.name) ++
        [.removed .breeds b.plural]) := by
    rw [Registries.removeBreed, hlocate]
    rfl
  have hperm := names_removed_perm before after b r.vars (·.scope.isOwnedBy b.plural)
  rw [← hsplit] at hperm
  have hfree := hr.freeBeside_of_perm (hr.removeBreed hremoved) hperm (List.Subset.refl _)
  refine ⟨_, _, hremoved, hfree _ (by simp), hfree _ (by simp), fun v hv hscope => hfree _ ?_⟩
  refine List.mem_append_right _ (List.mem_map_of_mem (List.mem_filter.2 ⟨hv, ?_⟩))
  rw [hscope, Scope.isOwnedBy, sameName_refl]

theorem Coherent.release_removeVariable (hr : r.Coherent) {v : Variable} (hv : v ∈ r.vars)
    {old : String} (hsame : fold v.name = fold old) :
    ∃ r' events, r.removeVariable old = .ok (r', events) ∧ FreeBeside r'.names v.name := by
  obtain ⟨before, after, hlocate, hperm, -⟩ := hr.exists_locateVariable hv hsame
  have hremoved : r.removeVariable old =
      .ok (⟨r.breeds, before ++ after⟩, [.removed .vars v.name]) := by
    rw [Registries.removeVariable, hlocate]
    rfl
  exact ⟨_, _, hremoved, hr.freeBeside_of_perm (hr.removeVariable hremoved) hperm
    (List.Subset.refl _) _ (by simp)⟩

/-- A name that an entry has given up for others is free beside them. -/
theorem Coherent.release_renamed (hr : r.Coherent) (hr' : r'.Coherent)
    {own new rest : List String} (hperm : r.names.Perm (own ++ rest))
    (hperm' : r'.names.Perm (new ++ rest)) {name : String} (hname : name ∈ own)
    (hnew : ∀ used ∈ new, fold used ≠ fold name) : FreeBeside r'.names name := by
  have hmem : name ∈ r.names := hperm.mem_iff.2 (List.mem_append_left _ hname)
  refine hr.freeBeside hr' hmem fun used hused => ?_
  rcases List.mem_append.1 (hperm'.mem_iff.1 hused) with hused | hused
  · exact hnew used hused
  · exact ne_of_perm hperm hr.distinct hname hused

theorem Coherent.release_renameBreed (hr : r.Coherent) {b : Breed} (hb : b ∈ r.customBreeds)
    {old plural singular : String} (hanswers : b.answersTo old = true)
    (h : r.renameBreed old plural singular = .ok (r', events)) {name : String}
    (hname : name ∈ [b.plural, b.singular]) (hplural : fold plural ≠ fold name)
    (hsingular : fold singular ≠ fold name) : FreeBeside r'.names name := by
  obtain ⟨before, after, hlocate, hperm, -⟩ := hr.exists_locateBreed hb hanswers
  have hr' := hr.renameBreed h
  obtain ⟨before', b', after', hlocate', -, rfl, -⟩ := renameBreed_eq_ok h
  rw [hlocate] at hlocate'
  cases hlocate'
  have hperm' := names_breed_perm before after { b with plural, singular } r.vars
  rw [← names_follow _ r.vars b.plural plural] at hperm'
  exact hr.release_renamed hr' hperm hperm' hname (by simp [hplural, hsingular])

theorem Coherent.release_renameVariable (hr : r.Coherent) {v : Variable} (hv : v ∈ r.vars)
    {old new : String} (hsame : fold v.name = fold old)
    (h : r.renameVariable old new = .ok (r', events)) (hne : fold new ≠ fold v.name) :
    FreeBeside r'.names v.name := by
  obtain ⟨before, after, hlocate, hperm, -⟩ := hr.exists_locateVariable hv hsame
  have hr' := hr.renameVariable h
  obtain ⟨before', v', after', hlocate', -, rfl, -⟩ := renameVariable_eq_ok h
  rw [hlocate] at hlocate'
  cases hlocate'
  have hperm' := names_variable_perm r.breeds before after { v with name := new }
  exact hr.release_renamed hr' hperm hperm' (by simp) (by simpa using hne)

theorem Coherent.release_reset (hr : r.Coherent) :
    (∀ b ∈ r.customBreeds,
      FreeBeside r.reset.1.names b.plural ∧ FreeBeside r.reset.1.names b.singular) ∧
    ∀ v ∈ r.vars, FreeBeside r.reset.1.names v.name := by
  have hperm : r.names.Perm (((r.customBreeds.flatMap fun b => [b.plural, b.singular]) ++
      r.vars.map (·.name)) ++ empty.names) := by
    have hempty : empty.names = builtinBreeds.flatMap fun b => [b.plural, b.singular] := rfl
    rw [names, hr.builtins, List.flatMap_append, List.append_assoc, ← hempty]
    exact List.perm_append_comm
  have hreset : r.reset.1.names ⊆ empty.names := by
    rw [Registries.reset, hr.filter_builtin]
    exact List.Subset.refl _
  have hfree := hr.freeBeside_of_perm hr.reset hperm hreset
  have hbreed : ∀ b ∈ r.customBreeds, ∀ name ∈ [b.plural, b.singular],
      FreeBeside r.reset.1.names name := fun b hb name hname =>
    hfree name (List.mem_append_left _ (List.mem_flatMap.2 ⟨b, hb, hname⟩))
  refine ⟨fun b hb => ⟨hbreed b hb _ (by simp), hbreed b hb _ (by simp)⟩, fun v hv => ?_⟩
  exact hfree _ (List.mem_append_right _ (List.mem_map_of_mem hv))

theorem Coherent.releases (hr : r.Coherent) : r.Releases where
  removeBreed _ hb _ hanswers := hr.release_removeBreed hb hanswers
  removeVariable _ hv _ hsame := hr.release_removeVariable hv hsame
  renameBreed _ hb _ hanswers _ _ _ _ h _ hname hplural hsingular :=
    hr.release_renameBreed hb hanswers h hname hplural hsingular
  renameVariable _ hv _ hsame _ _ _ h hne := hr.release_renameVariable hv hsame h hne
  reset := hr.release_reset
  edit edit _ hname habsent := hr.freeBeside (hr.apply edit) hname habsent

end Registries

namespace RegistryEdit

/-- After any edits of a model without declarations a name is taken exactly when it is usable and
no other entry carries it now: entries may respell and change over their own names, and names that
are given up, in whatever way, are free at once. -/
theorem takesFreeNames_run (edits : List RegistryEdit) :
    (run .empty edits).TakesFreeNames ∧ (run .empty edits).Respells ∧
      (run .empty edits).Releases := by
  have hr := coherent_run Registries.coherent_empty edits
  exact ⟨hr.takesFreeNames, hr.respells, hr.releases⟩

end RegistryEdit

end AgentBlocks
