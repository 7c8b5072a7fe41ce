import AgentBlocks.Proofs.Registry.Change

/-!
Coherence of the registries: what every sequence of edits keeps, starting from a model without
declarations.
-/
namespace AgentBlocks

open Text

/-- A name that an entry may carry: it has the form of a name and is no word of the language. -/
def Usable (name : String) : Prop := isValidName name = true ∧ isReservedWord name = false

structure Breed.Declared (b : Breed) : Prop where
  custom : b.builtin = false
  kind : b.kind ≠ .patch
  plural : Usable b.plural
  singular : Usable b.singular

namespace Registries

variable {r r' : Registries} {events : List RegistryEvent}

/-- The built-in breeds stand unchanged before the declared ones, no two names agree, every declared
name is usable, and a variable of a breed spells its owner as the breed does. -/
structure Coherent (r : Registries) : Prop where
  builtins : r.breeds = builtinBreeds ++ r.customBreeds
  distinct : (r.names.map fold).Nodup
  breeds : ∀ b ∈ r.customBreeds, b.Declared
  vars : ∀ v ∈ r.vars, Usable v.name
  owners : ∀ v ∈ r.vars, ∀ plural, v.scope = .breed plural →
    ∃ b ∈ r.customBreeds, b.plural = plural

theorem coherent_empty : empty.Coherent := by
  refine ⟨rfl, by decide +kernel, ?_, ?_, ?_⟩ <;> intro x hx <;> cases hx

theorem customBreeds_append {custom : List Breed} (hcustom : ∀ b ∈ custom, b.builtin = false)
    (vars : List Variable) : customBreeds ⟨builtinBreeds ++ custom, vars⟩ = custom := by
  have hbuiltin : builtinBreeds.filter (!·.builtin) = [] := rfl
  unfold customBreeds
  rw [List.filter_append, hbuiltin, List.nil_append, List.filter_eq_self]
  intro b hb
  rw [hcustom b hb]
  rfl

/-- Coherence of registries that are given by their declared breeds. -/
theorem coherent_of_custom {custom : List Breed} {vars : List Variable}
    (hdistinct : ((names ⟨builtinBreeds ++ custom, vars⟩).map fold).Nodup)
    (hcustom : ∀ b ∈ custom, b.Declared) (hvars : ∀ v ∈ vars, Usable v.name)
    (howners : ∀ v ∈ vars, ∀ plural, v.scope = .breed plural → ∃ b ∈ custom, b.plural = plural) :
    Coherent ⟨builtinBreeds ++ custom, vars⟩ := by
  have hbreeds := customBreeds_append (fun b hb => (hcustom b hb).custom) vars
  refine ⟨?_, hdistinct, ?_, hvars, ?_⟩
  · rw [hbreeds]
  · rw [hbreeds]
    exact hcustom
  · rw [hbreeds]
    exact howners

/-- A declared breed stands behind the built-in ones. -/
theorem Coherent.split {before after : List Breed} {b : Breed} (hr : r.Coherent)
    (hsplit : r.breeds = before ++ b :: after) (hb : b.builtin = false) :
    ∃ custom, before = builtinBreeds ++ custom ∧ r.customBreeds = custom ++ b :: after := by
  have heq : before ++ b :: after = builtinBreeds ++ r.customBreeds := hsplit ▸ hr.builtins
  rcases List.append_eq_append_iff.1 heq with ⟨front, hfront, hback⟩ | ⟨custom, hbefore, hcustom⟩
  · cases front with
    | nil => exact ⟨[], by simpa using hfront.symm, by simpa using hback.symm⟩
    | cons c front =>
        -- the breed would be a built-in one
        obtain ⟨rfl, -⟩ := List.cons.inj hback
        have hmem : b ∈ builtinBreeds := by simp [hfront]
        have hbuiltin : ∀ c ∈ builtinBreeds, c.builtin = true := by decide
        rw [hbuiltin b hmem] at hb
        cases hb
  · exact ⟨custom, hbefore, hcustom⟩

theorem names_breed_perm (before after : List Breed) (b : Breed) (vars : List Variable) :
    (names ⟨before ++ b :: after, vars⟩).Perm
      ([b.plural, b.singular] ++ names ⟨before ++ after, vars⟩) := by
  rw [List.perm_iff_count]
  intro name
  simp only [names, List.flatMap_append, List.flatMap_cons, List.count_append]
  omega

theorem names_variable_perm (breeds : List Breed) (before after : List Variable) (v : Variable) :
    (names ⟨breeds, before ++ v :: after⟩).Perm ([v.name] ++ names ⟨breeds, before ++ after⟩) := by
  rw [List.perm_iff_count]
  intro name
  simp only [names, List.map_append, List.map_cons, List.count_append, List.count_cons,
    List.count_nil]
  omega

theorem names_follow (breeds : List Breed) (vars : List Variable) (old new : String) :
    names ⟨breeds, vars.map (Variable.follow old new)⟩ = names ⟨breeds, vars⟩ := by
  simp [names, Function.comp_def]

theorem Admits.usable {own : List String} {name : String} (h : r.Admits own name) : Usable name :=
  ⟨h.valid, h.unreserved⟩

/-- Admitted names take the place of the names that an entry owned. -/
theorem distinct_replace {own new rest : List String} (hperm : r.names.Perm (own ++ rest))
    (hdistinct : (r.names.map fold).Nodup) (hnew : (new.map fold).Nodup)
    (hadmits : ∀ name ∈ new, r.Admits own name) : ((new ++ rest).map fold).Nodup := by
  have hsplit : ((own ++ rest).map fold).Nodup := (hperm.map fold).nodup_iff.1 hdistinct
  rw [List.map_append, List.nodup_append] at hsplit ⊢
  refine ⟨hnew, hsplit.2.1, ?_⟩
  intro a ha c hc hac
  obtain ⟨name, hname, rfl⟩ := List.mem_map.1 ha
  obtain ⟨used, hused, rfl⟩ := List.mem_map.1 hc
  have hmem : used ∈ r.names := hperm.mem_iff.2 (List.mem_append_right _ hused)
  exact hsplit.2.2 _ ((hadmits name hname).free used hmem hac.symm) _ hc rfl

theorem Coherent.addBreed {plural singular : String} {kind : BreedKind} (hr : r.Coherent)
    (h : r.addBreed plural singular kind = .ok (r', events)) : r'.Coherent := by
  obtain ⟨hkind, hnames, rfl, -⟩ := addBreed_eq_ok h
  obtain ⟨hplural, hsingular, hne⟩ := checkBreedNames_eq_ok.1 hnames
  have hperm := names_breed_perm r.breeds [] ⟨plural, singular, kind, false⟩ r.vars
  rw [List.append_nil] at hperm
  have hnone : r.names.Perm ([] ++ names ⟨r.breeds, r.vars⟩) := .refl _
  have hrest : (([plural, singular] ++ names ⟨r.breeds, r.vars⟩).map fold).Nodup := by
    refine distinct_replace hnone hr.distinct (by simpa using hne) ?_
    intro name hname
    rcases List.mem_pair.1 hname with rfl | rfl
    · exact hplural
    · exact hsingular
  have hdistinct := (hperm.map fold).nodup_iff.2 hrest
  rw [hr.builtins, List.append_assoc] at hdistinct ⊢
  refine coherent_of_custom hdistinct ?_ hr.vars ?_
  · intro b hb
    rcases List.mem_append.1 hb with hb | hb
    · exact hr.breeds b hb
    · cases List.mem_singleton.1 hb
      exact ⟨rfl, hkind, hplural.usable, hsingular.usable⟩
  · intro v hv owner howner
    obtain ⟨b, hb, hplural⟩ := hr.owners v hv owner howner
    exact ⟨b, List.mem_append_left _ hb, hplural⟩

theorem Coherent.renameBreed {old plural singular : String} (hr : r.Coherent)
    (h : r.renameBreed old plural singular = .ok (r', events)) : r'.Coherent := by
  obtain ⟨before, b, after, hlocate, hnames, rfl, -⟩ := renameBreed_eq_ok h
  obtain ⟨hsplit, hcustom, -, -⟩ := locateBreed_eq_ok hlocate
  obtain ⟨hplural, hsingular, hne⟩ := checkBreedNames_eq_ok.1 hnames
  have hperm := names_breed_perm before after b r.vars
  rw [← hsplit] at hperm
  have hrest : (([plural, singular] ++ names ⟨before ++ after, r.vars⟩).map fold).Nodup := by
    refine distinct_replace hperm hr.distinct (by simpa using hne) ?_
    intro name hname
    rcases List.mem_pair.1 hname with rfl | rfl
    · exact hplural
    · exact hsingular
  have hdistinct : ((names ⟨before ++ { b with plural, singular } :: after,
      r.vars.map (Variable.follow b.plural plural)⟩).map fold).Nodup := by
    rw [names_follow, ((names_breed_perm _ _ _ _).map fold).nodup_iff]
    exact hrest
  obtain ⟨custom, rfl, hbreeds⟩ := hr.split hsplit hcustom
  have hdeclared : ∀ c ∈ custom ++ b :: after, c.Declared := by
    rw [← hbreeds]
    exact hr.breeds
  rw [List.append_assoc] at hdistinct ⊢
  refine coherent_of_custom hdistinct ?_ ?_ ?_
  · intro c hc
    rcases List.mem_append.1 hc with hc | hc
    · exact hdeclared c (List.mem_append_left _ hc)
    · rcases List.mem_cons.1 hc with rfl | hc
      · have hb := hdeclared b (by simp)
        exact ⟨hb.custom, hb.kind, hplural.usable, hsingular.usable⟩
      · exact hdeclared c (by simp [hc])
  · intro v hv
    obtain ⟨w, hw, rfl⟩ := List.mem_map.1 hv
    rw [Variable.follow_name]
    exact hr.vars w hw
  · intro v hv owner howner
    obtain ⟨w, hw, rfl⟩ := List.mem_map.1 hv
    unfold Variable.follow at howner
    split at howner
    · cases howner
      exact ⟨{ b with plural, singular }, by simp, rfl⟩
    · -- the owner is another breed, since the renamed one owns every variable under its plural
      rename_i hother
      obtain ⟨c, hc, rfl⟩ := hr.owners w hw owner howner
      rw [hbreeds] at hc
      rcases List.mem_append.1 hc with hc | hc
      · exact ⟨c, List.mem_append_left _ hc, rfl⟩
      · rcases List.mem_cons.1 hc with rfl | hc
        · rw [howner, Scope.isOwnedBy, sameName_refl] at hother
          exact absurd rfl hother
        · exact ⟨c, by simp [hc], rfl⟩

theorem Coherent.removeBreed {name : String} (hr : r.Coherent)
    (h : r.removeBreed name = .ok (r', events)) : r'.Coherent := by
  obtain ⟨before, b, after, hlocate, rfl, -⟩ := removeBreed_eq_ok h
  obtain ⟨hsplit, hcustom, -, -⟩ := locateBreed_eq_ok hlocate
  have hperm := names_breed_perm before after b r.vars
  rw [← hsplit] at hperm
  have hdistinct : ((names ⟨before ++ after,
      r.vars.filter fun v => !v.scope.isOwnedBy b.plural⟩).map fold).Nodup := by
    refine ((hperm.map fold).nodup_iff.1 hr.distinct).sublist (List.Sublist.map fold ?_)
    refine List.Sublist.trans ?_ (List.sublist_append_right _ _)
    exact (List.filter_sublist.map _).append_left _
  obtain ⟨custom, rfl, hbreeds⟩ := hr.split hsplit hcustom
  have hdeclared : ∀ c ∈ custom ++ b :: after, c.Declared := by
    rw [← hbreeds]
    exact hr.breeds
  rw [List.append_assoc] at hdistinct ⊢
  refine coherent_of_custom hdistinct ?_ ?_ ?_
  · intro c hc
    rcases List.mem_append.1 hc with hc | hc
    · exact hdeclared c (List.mem_append_left _ hc)
    · exact hdeclared c (by simp [hc])
  · intro v hv
    exact hr.vars v (List.mem_of_mem_filter hv)
  · intro v hv owner howner
    obtain ⟨hv, hkept⟩ := List.mem_filter.1 hv
    obtain ⟨c, hc, rfl⟩ := hr.owners v hv owner howner
    rw [hbreeds] at hc
    rcases List.mem_append.1 hc with hc | hc
    · exact ⟨c, List.mem_append_left _ hc, rfl⟩
    · rcases List.mem_cons.1 hc with rfl | hc
      · rw [howner, Scope.isOwnedBy, sameName_refl] at hkept
        cases hkept
      · exact ⟨c, List.mem_append_right _ hc, rfl⟩

theorem Coherent.addVariable {name : String} {scope : Scope} (hr : r.Coherent)
    (h : r.addVariable name scope = .ok (r', events)) : r'.Coherent := by
  obtain ⟨scope', hname, hscope, rfl, -⟩ := addVariable_eq_ok h
  have hadmits := checkName_eq_ok.1 hname
  have hperm := names_variable_perm r.breeds r.vars [] ⟨name, scope'⟩
  rw [List.append_nil] at hperm
  have hnone : r.names.Perm ([] ++ names ⟨r.breeds, r.vars⟩) := .refl _
  have hrest : (([name] ++ names ⟨r.breeds, r.vars⟩).map fold).Nodup := by
    refine distinct_replace hnone hr.distinct (by simp) ?_
    intro n hn
    cases List.mem_singleton.1 hn
    exact hadmits
  have hdistinct := (hperm.map fold).nodup_iff.2 hrest
  rw [hr.builtins] at hdistinct ⊢
  refine coherent_of_custom hdistinct hr.breeds ?_ ?_
  · intro v hv
    rcases List.mem_append.1 hv with hv | hv
    · exact hr.vars v hv
    · cases List.mem_singleton.1 hv
      exact hadmits.usable
  · intro v hv owner howner
    rcases List.mem_append.1 hv with hv | hv
    · exact hr.owners v hv owner howner
    · cases List.mem_singleton.1 hv
      exact resolveScope_eq_ok hscope howner

theorem Coherent.renameVariable {old new : String} (hr : r.Coherent)
    (h : r.renameVariable old new = .ok (r', events)) : r'.Coherent := by
  obtain ⟨before, v, after, hlocate, hname, rfl, -⟩ := renameVariable_eq_ok h
  obtain ⟨hsplit, -, -⟩ := locateVariable_eq_ok hlocate
  have hadmits := checkName_eq_ok.1 hname
  have hperm := names_variable_perm r.breeds before after v
  rw [← hsplit] at hperm
  have hrest : (([new] ++ names ⟨r.breeds, before ++ after⟩).map fold).Nodup := by
    refine distinct_replace hperm hr.distinct (by simp) ?_
    intro n hn
    cases List.mem_singleton.1 hn
    exact hadmits
  have hdistinct := ((names_variable_perm r.breeds before after
    { v with name := new }).map fold).nodup_iff.2 hrest
  have hvars : ∀ w ∈ before ++ { v with name := new } :: after,
      w ∈ r.vars ∨ w = { v with name := new } := by
    intro w hw
    rw [hsplit]
    simp only [List.mem_append, List.mem_cons] at hw ⊢
    tauto
  rw [hr.builtins] at hdistinct ⊢
  refine coherent_of_custom hdistinct hr.breeds ?_ ?_
  · intro w hw
    rcases hvars w hw with hw | rfl
    · exact hr.vars w hw
    · exact hadmits.usable
  · intro w hw owner howner
    rcases hvars w hw with hw | rfl
    · exact hr.owners w hw owner howner
    · exact hr.owners v (by simp [hsplit]) owner howner

theorem Coherent.removeVariable {name : String} (hr : r.Coherent)
    (h : r.removeVariable name = .ok (r', events)) : r'.Coherent := by
  obtain ⟨before, v, after, hlocate, rfl, -⟩ := removeVariable_eq_ok h
  obtain ⟨hsplit, -, -⟩ := locateVariable_eq_ok hlocate
  have hperm := names_variable_perm r.breeds before after v
  rw [← hsplit] at hperm
  have hdistinct : ((names ⟨r.breeds, before ++ after⟩).map fold).Nodup :=
    ((hperm.map fold).nodup_iff.1 hr.distinct).sublist
      ((List.sublist_append_right _ _).map fold)
  have hvars : ∀ w ∈ before ++ after, w ∈ r.vars := by
    intro w hw
    rw [hsplit]
    simp only [List.mem_append, List.mem_cons] at hw ⊢
    tauto
  rw [hr.builtins] at hdistinct ⊢
  exact coherent_of_custom hdistinct hr.breeds (fun w hw => hr.vars w (hvars w hw))
    fun w hw => hr.owners w (hvars w hw)

theorem Coherent.filter_builtin (hr : r.Coherent) :
    r.breeds.filter (·.builtin) = builtinBreeds := by
  have hcustom : r.customBreeds.filter (·.builtin) = [] := by
    rw [List.filter_eq_nil_iff]
    intro b hb
    simp [(hr.breeds b hb).custom]
  rw [hr.builtins, List.filter_append, hcustom]
  rfl

theorem Coherent.reset (hr : r.Coherent) : r.reset.1.Coherent := by
  have hreset : r.reset.1 = empty := by
    rw [Registries.reset, hr.filter_builtin]
    rfl
  rw [hreset]
  exact coherent_empty

/-- Replayed changes keep what each of them keeps. -/
theorem coherent_foldlM {α : Type} {change : Registries → α → Change} {entries : List α}
    (hchange : ∀ {r r' a events}, r.Coherent → change r a = .ok (r', events) → r'.Coherent)
    (hr : r.Coherent) (h : entries.foldlM (fun r a => (·.1) <$> change r a) r = .ok r') :
    r'.Coherent := by
  induction entries generalizing r with
  | nil =>
      cases h
      exact hr
  | cons a entries ih =>
      rw [List.foldlM_cons] at h
      obtain ⟨r₁, hfirst, hrest⟩ := except_bind_eq_ok.1 h
      cases hstep : change r a with
      | error e =>
          rw [hstep] at hfirst
          cases hfirst
      | ok changed =>
          rw [hstep] at hfirst
          cases hfirst
          exact ih (hchange hr hstep) hrest

theorem coherent_ofSnapshot {s : Snapshot} (h : ofSnapshot s = .ok r) : r.Coherent := by
  obtain ⟨r₁, hbreeds, hvars⟩ := except_bind_eq_ok.1 h
  have hr₁ := coherent_foldlM Coherent.addBreed coherent_empty hbreeds
  exact coherent_foldlM Coherent.addVariable hr₁ hvars

/-- A change that is not refused keeps the registries coherent. -/
theorem Coherent.change {edit : RegistryEdit} (hr : r.Coherent)
    (h : edit.change r = .ok (r', events)) : r'.Coherent := by
  cases edit with
  | addBreed plural singular kind => exact hr.addBreed h
  | renameBreed old plural singular => exact hr.renameBreed h
  | removeBreed name => exact hr.removeBreed h
  | addVariable name scope => exact hr.addVariable h
  | renameVariable old new => exact hr.renameVariable h
  | removeVariable name => exact hr.removeVariable h
  | reset =>
      cases h
      exact hr.reset
  | restore snapshot => exact coherent_ofSnapshot (restore_eq_ok (r := r) h).1

theorem Coherent.apply (hr : r.Coherent) (edit : RegistryEdit) : (edit.apply r).Coherent := by
  unfold RegistryEdit.apply
  split
  · rename_i r' events h
    exact hr.change h
  · exact hr

/-- A declared breed is one of turtles or one of links, and never both. -/
theorem Coherent.mem_turtleBreeds_iff (hr : r.Coherent) {b : Breed} (hb : b ∈ r.customBreeds) :
    b ∈ r.turtleBreeds ↔ b ∉ r.linkBreeds := by
  have hkind := (hr.breeds b hb).kind
  simp only [turtleBreeds, linkBreeds, List.mem_filter, hb, true_and]
  cases hk : b.kind with
  | turtle => decide
  | undirectedLink => decide
  | directedLink => decide
  | patch => exact absurd hk hkind

end Registries

namespace RegistryEdit

/-- The registries after edits one after the other; a refused edit is passed over. -/
def run (r : Registries) (edits : List RegistryEdit) : Registries := edits.foldl apply r

theorem coherent_run {r : Registries} (hr : r.Coherent) (edits : List RegistryEdit) :
    (run r edits).Coherent := by
  induction edits generalizing r with
  | nil => exact hr
  | cons edit edits ih => exact ih (hr.apply edit)

/-- After any edits of a model without declarations the built-in breeds are there, unchanged and
the only ones marked as such, all names differ in any case, the declared ones are usable, every
declared breed is one of turtles or one of links, and owners are spelled as they were declared. -/
theorem run_empty_coherent (edits : List RegistryEdit) :
    (run .empty edits).Coherent ∧
      (run .empty edits).breeds.filter (·.builtin) = Registries.builtinBreeds ∧
      ∀ b ∈ (run .empty edits).customBreeds,
        b ∈ (run .empty edits).turtleBreeds ↔ b ∉ (run .empty edits).linkBreeds := by
  have hr := coherent_run Registries.coherent_empty edits
  exact ⟨hr, hr.filter_builtin, fun b hb => hr.mem_turtleBreeds_iff hb⟩

end RegistryEdit

end AgentBlocks
