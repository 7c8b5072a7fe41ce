import AgentBlocks.Proofs.Registry.Coherence
import Mathlib.Data.List.Nodup

/-!
Saved registries. The entries of a snapshot that fit together are accepted one after the other, and
the snapshot of coherent registries brings them back as they were, spelling and order included.
-/
namespace AgentBlocks

open Text

def Breed.declaration (b : Breed) : Breed := { b with builtin := false }

/-- The scope with its owner spelled as the first of some breeds that has the plural. -/
def Scope.spelledBy (breeds : List Breed) : Scope → Scope
  | .breed owner =>
    match breeds.find? fun b => sameName b.plural owner with
    | some b => .breed b.plural
    | none => .breed owner
  | scope => scope

def Variable.spelledBy (breeds : List Breed) (v : Variable) : Variable :=
  { v with scope := v.scope.spelledBy breeds }

namespace Registries

variable {r : Registries}

/-- The registries that declare the entries of a snapshot. -/
def declaring (s : Snapshot) : Registries :=
  ⟨builtinBreeds ++ s.breeds.map Breed.declaration, s.vars.map (Variable.spelledBy s.breeds)⟩

theorem admits_of_free {own : List String} {name : String} (husable : Usable name)
    (hfree : fold name ∉ r.names.map fold) : r.Admits own name := by
  refine ⟨husable.1, fun used hused hsame => ?_, husable.2⟩
  exact absurd (hsame ▸ List.mem_map_of_mem hused) hfree

theorem names_declaration (before after : List Breed) (b : Breed) (vars : List Variable) :
    names ⟨before ++ b.declaration :: after, vars⟩ = names ⟨before ++ b :: after, vars⟩ := by
  simp [names, Breed.declaration]

theorem addBreed_of_free {b : Breed} (hkind : b.kind ≠ .patch) (hplural : Usable b.plural)
    (hsingular : Usable b.singular)
    (hfree : (([b.plural, b.singular] ++ r.names).map fold).Nodup) :
    r.addBreed b.plural b.singular b.kind =
      .ok (⟨r.breeds ++ [b.declaration], r.vars⟩, [.added .breeds b.plural]) := by
  simp only [List.cons_append, List.nil_append, List.map_cons, List.nodup_cons, List.mem_cons,
    not_or] at hfree
  obtain ⟨⟨hne, hplural'⟩, hsingular', -⟩ := hfree
  have hnames : r.checkBreedNames [] b.plural b.singular = .ok () :=
    checkBreedNames_eq_ok.2
      ⟨admits_of_free hplural hplural', admits_of_free hsingular hsingular', hne⟩
  rw [addBreed, if_neg hkind, hnames]
  rfl

theorem addVariable_of_free {v : Variable} {scope : Scope} (hname : Usable v.name)
    (hscope : r.resolveScope v.scope = .ok scope) (hfree : fold v.name ∉ r.names.map fold) :
    r.addVariable v.name v.scope =
      .ok (⟨r.breeds, r.vars ++ [{ v with scope }]⟩, [.added .vars v.name]) := by
  rw [addVariable, checkName_eq_ok.2 (admits_of_free hname hfree), hscope]
  rfl

theorem foldlM_addBreed {breeds : List Breed} (hkind : ∀ b ∈ breeds, b.kind ≠ .patch)
    (husable : ∀ b ∈ breeds, Usable b.plural ∧ Usable b.singular)
    (hdistinct : ((names ⟨r.breeds ++ breeds, r.vars⟩).map fold).Nodup) :
    breeds.foldlM (fun r b => (·.1) <$> r.addBreed b.plural b.singular b.kind) r =
      .ok ⟨r.breeds ++ breeds.map Breed.declaration, r.vars⟩ := by
  induction breeds generalizing r with
  | nil => simp [pure, Except.pure]
  | cons b rest ih =>
      have hfree : (([b.plural, b.singular] ++ r.names).map fold).Nodup := by
        have hperm := names_breed_perm r.breeds rest b r.vars
        refine ((hperm.map fold).nodup_iff.1 hdistinct).sublist (List.Sublist.map fold ?_)
        refine List.Sublist.append_left ?_ _
        simp only [names, List.flatMap_append, List.append_assoc]
        exact (List.sublist_append_right _ _).append_left _
      have hfirst := addBreed_of_free (hkind b (by simp)) (husable b (by simp)).1
        (husable b (by simp)).2 hfree
      have hrest := ih (r := ⟨r.breeds ++ [b.declaration], r.vars⟩)
        (fun c hc => hkind c (by simp [hc])) (fun c hc => husable c (by simp [hc]))
        (by simpa [names_declaration] using hdistinct)
      rw [List.foldlM_cons, hfirst]
      change rest.foldlM _ (⟨r.breeds ++ [b.declaration], r.vars⟩ : Registries) = _
      rw [hrest]
      simp

theorem foldlM_addVariable {vars : List Variable} {spell : Scope → Scope}
    (husable : ∀ v ∈ vars, Usable v.name)
    (hscope : ∀ v ∈ vars, r.resolveScope v.scope = .ok (spell v.scope))
    (hdistinct : ((names ⟨r.breeds, r.vars ++ vars⟩).map fold).Nodup) :
    vars.foldlM (fun r v => (·.1) <$> r.addVariable v.name v.scope) r =
      .ok ⟨r.breeds, r.vars ++ vars.map fun v => { v with scope := spell v.scope }⟩ := by
  induction vars generalizing r with
  | nil => simp [pure, Except.pure]
  | cons v rest ih =>
      have hfree : fold v.name ∉ r.names.map fold := by
        have hperm := names_variable_perm r.breeds r.vars rest v
        have hnodup := (hperm.map fold).nodup_iff.1 hdistinct
        simp only [List.cons_append, List.nil_append, List.map_cons, List.nodup_cons] at hnodup
        refine fun hmem => hnodup.1 ((List.Sublist.map fold ?_).subset hmem)
        exact ((List.sublist_append_left _ _).map _).append_left _
      have hfirst := addVariable_of_free (husable v (by simp)) (hscope v (by simp)) hfree
      have hrest := ih (r := ⟨r.breeds, r.vars ++ [{ v with scope := spell v.scope }]⟩)
        (fun u hu => husable u (by simp [hu])) (fun u hu => hscope u (by simp [hu]))
        (by simpa [names] using hdistinct)
      rw [List.foldlM_cons, hfirst]
      change rest.foldlM _
        (⟨r.breeds, r.vars ++ [{ v with scope := spell v.scope }]⟩ : Registries) = _
      rw [hrest]
      simp

end Registries

/-- The entries of the snapshot fit together and beside the built-in breeds. -/
structure Snapshot.Consistent (s : Snapshot) : Prop where
  kinds : ∀ b ∈ s.breeds, b.kind ≠ .patch
  breeds : ∀ b ∈ s.breeds, Usable b.plural ∧ Usable b.singular
  vars : ∀ v ∈ s.vars, Usable v.name
  distinct : ((Registries.names ⟨Registries.builtinBreeds ++ s.breeds, s.vars⟩).map fold).Nodup
  owners : ∀ v ∈ s.vars, ∀ owner, v.scope = .breed owner →
    ∃ b ∈ s.breeds, fold b.plural = fold owner

namespace Registries

variable {r : Registries}

/-- An owner among the breeds of a snapshot is found behind the built-in breeds. -/
theorem resolveScope_declaring {breeds : List Breed} {scope : Scope}
    (howner : ∀ owner, scope = .breed owner → ∃ b ∈ breeds, fold b.plural = fold owner) :
    resolveScope ⟨builtinBreeds ++ breeds.map Breed.declaration, []⟩ scope =
      .ok (scope.spelledBy breeds) := by
  cases scope with
  | breed owner =>
      obtain ⟨b, hb, hsame⟩ := howner owner rfl
      have hfound : (breeds.find? fun b => sameName b.plural owner).isSome :=
        List.find?_isSome.2 ⟨b, hb, sameName_iff.2 hsame⟩
      obtain ⟨c, hc⟩ := Option.isSome_iff_exists.1 hfound
      have hbuiltin : builtinBreeds.find? (fun b => !b.builtin && sameName b.plural owner) = none :=
        List.find?_eq_none.2 (by simp [builtinBreeds])
      have hdeclared : (breeds.map Breed.declaration).find?
          (fun b => !b.builtin && sameName b.plural owner) = some c.declaration := by
        rw [List.find?_map]
        simp [Function.comp_def, Breed.declaration, hc]
      simp only [resolveScope, List.find?_append, hbuiltin, hdeclared, Option.none_or,
        Scope.spelledBy, hc]
      rfl
  | global => rfl
  | turtles => rfl
  | patches => rfl
  | links => rfl

theorem ofSnapshot_of_consistent {s : Snapshot} (hs : s.Consistent) :
    ofSnapshot s = .ok (declaring s) := by
  have hbreeds : s.breeds.foldlM
      (fun r b => (·.1) <$> r.addBreed b.plural b.singular b.kind) empty =
        .ok ⟨builtinBreeds ++ s.breeds.map Breed.declaration, []⟩ := by
    refine foldlM_addBreed (r := empty) hs.kinds hs.breeds (hs.distinct.sublist ?_)
    exact List.Sublist.map fold ((List.nil_sublist _).append_left _)
  have hvars := foldlM_addVariable
    (r := ⟨builtinBreeds ++ s.breeds.map Breed.declaration, []⟩) hs.vars
    (fun v hv => resolveScope_declaring (hs.owners v hv))
    (by simpa [names, Breed.declaration, Function.comp_def, List.flatMap_map] using hs.distinct)
  rw [ofSnapshot, hbreeds]
  exact hvars

theorem plurals_sublist (breeds : List Breed) (vars : List Variable) :
    (breeds.map (·.plural)).Sublist (names ⟨breeds, vars⟩) := by
  refine List.Sublist.trans ?_ (List.sublist_append_left _ _)
  induction breeds with
  | nil => exact .refl _
  | cons b rest ih => exact (ih.cons b.singular).cons_cons b.plural

theorem Coherent.nodup_plurals (hr : r.Coherent) : (r.customBreeds.map (·.plural)).Nodup := by
  have hsub : (r.customBreeds.map (·.plural)).Sublist r.names :=
    (List.filter_sublist.map _).trans (plurals_sublist r.breeds r.vars)
  exact (hr.distinct.sublist (hsub.map fold)).of_map fold

theorem Coherent.nodup_varNames (hr : r.Coherent) : (r.vars.map (·.name)).Nodup := by
  have hsub : (r.vars.map (·.name)).Sublist r.names := List.sublist_append_right _ _
  exact (hr.distinct.sublist (hsub.map fold)).of_map fold

/-- In coherent registries a plural belongs to one declared breed. -/
theorem Coherent.eq_of_plural {b c : Breed} (hr : r.Coherent) (hb : b ∈ r.customBreeds)
    (hc : c ∈ r.customBreeds) (hsame : fold b.plural = fold c.plural) : b = c := by
  have hsub : (r.customBreeds.map (·.plural)).Sublist r.names :=
    (List.filter_sublist.map _).trans (plurals_sublist r.breeds r.vars)
  have hnodup := hr.distinct.sublist (hsub.map fold)
  rw [List.map_map] at hnodup
  exact List.inj_on_of_nodup_map hnodup hb hc hsame

/-- The owner of a variable is spelled by its breed as it is. -/
theorem Coherent.spelledBy_scope {v : Variable} (hr : r.Coherent) (hv : v ∈ r.vars) :
    v.scope.spelledBy r.customBreeds = v.scope := by
  cases hscope : v.scope with
  | breed owner =>
      obtain ⟨b, hb, rfl⟩ := hr.owners v hv owner hscope
      cases hfound : r.customBreeds.find? fun c => sameName c.plural b.plural with
      | none => simp only [Scope.spelledBy, hfound]
      | some c =>
          have hsame := List.find?_some hfound
          have hcb := hr.eq_of_plural (List.mem_of_find?_eq_some hfound) hb (sameName_iff.1 hsame)
          simp only [Scope.spelledBy, hfound, hcb]
  | global => rfl
  | turtles => rfl
  | patches => rfl
  | links => rfl

theorem Coherent.consistent_snapshot (hr : r.Coherent) : r.snapshot.Consistent := by
  refine ⟨fun b hb => (hr.breeds b hb).kind, fun b hb => ?_, hr.vars, ?_, ?_⟩
  · exact ⟨(hr.breeds b hb).plural, (hr.breeds b hb).singular⟩
  · have hdistinct := hr.distinct
    unfold names at hdistinct ⊢
    rw [hr.builtins] at hdistinct
    exact hdistinct
  · intro v hv owner howner
    obtain ⟨b, hb, rfl⟩ := hr.owners v hv owner howner
    exact ⟨b, hb, rfl⟩

theorem Coherent.declaring_snapshot (hr : r.Coherent) : declaring r.snapshot = r := by
  have hbreeds : r.customBreeds.map Breed.declaration = r.customBreeds := by
    refine (List.map_congr_left fun b hb => ?_).trans (List.map_id _)
    rw [Breed.declaration, ← (hr.breeds b hb).custom, id_eq]
  have hvars : r.vars.map (Variable.spelledBy r.customBreeds) = r.vars := by
    refine (List.map_congr_left fun v hv => ?_).trans (List.map_id _)
    rw [Variable.spelledBy, hr.spelledBy_scope hv, id_eq]
  unfold declaring snapshot
  rw [hbreeds, hvars, ← hr.builtins]

theorem Coherent.ofSnapshot_snapshot (hr : r.Coherent) : ofSnapshot r.snapshot = .ok r := by
  rw [ofSnapshot_of_consistent hr.consistent_snapshot, hr.declaring_snapshot]

end Registries

namespace RegistryEdit

/-- What any edits have made of a model without declarations is brought back by its snapshot, to any
registries, exactly as it was. -/
theorem restore_snapshot_run (edits : List RegistryEdit) (r : Registries) :
    r.restore (run .empty edits).snapshot = .ok (run .empty edits, [.reset]) := by
  have hr := coherent_run Registries.coherent_empty edits
  rw [Registries.restore, Registries.ofSnapshot_of_consistent hr.consistent_snapshot,
    hr.declaring_snapshot]
  rfl

end RegistryEdit

end AgentBlocks
