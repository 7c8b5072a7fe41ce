import AgentBlocks.Proofs.Registry.Addressing
import AgentBlocks.Proofs.Registry.Extent

/-!
Renames taken back. The names that an entry had before are free for it after it was renamed, and the
renaming to them leads back to the registries as they were, with every owner spelled and every entry
placed as before.
-/
namespace AgentBlocks

open Text

namespace Registries

variable {r r' : Registries} {events : List RegistryEvent}

/-- Variables that have followed a breed follow it back, when no other owner has its new plural. -/
theorem Coherent.follow_follow (hr : r.Coherent) {before after : List Breed} {b : Breed}
    (hb : b ∈ r.customBreeds) (hsplit : r.breeds = before ++ b :: after) {plural : String}
    (hfree : FreeBeside (names ⟨before ++ after, r.vars⟩) plural) {v : Variable} (hv : v ∈ r.vars) :
    (v.follow b.plural plural).follow plural b.plural = v := by
  rw [hr.follow_eq hb hv]
  split
  · rename_i hscope
    rw [Variable.follow, if_pos (by rw [Scope.isOwnedBy, sameName_refl]), ← hscope]
  · -- the variable of another breed, whose plural differs from the new one in any case
    rename_i hother
    refine if_neg fun howned => ?_
    cases hscope : v.scope with
    | breed owner =>
        obtain ⟨c, hc, rfl⟩ := hr.owners v hv owner hscope
        rw [hscope, Scope.isOwnedBy, sameName_iff] at howned
        have hne : c ≠ b := fun heq => hother (heq ▸ hscope)
        exact fold_plural_ne hsplit hfree (List.mem_filter.1 hc).1 hne howned
    | global | turtles | patches | links =>
        rw [hscope] at howned
        cases howned

theorem renameVariable_addresses {old new : String}
    (h : r.renameVariable old new = .ok (r', events)) :
    ∃ v ∈ r.vars, fold v.name = fold old := by
  obtain ⟨before, v, after, hlocate, -⟩ := renameVariable_eq_ok h
  exact ⟨v, locateVariable_mem hlocate⟩

theorem Coherent.renameBreed_back (hr : r.Coherent) {b : Breed} (hb : b ∈ r.customBreeds)
    {old plural singular : String} (hanswers : b.answersTo old = true)
    (h : r.renameBreed old plural singular = .ok (r', events)) {name : String}
    (hname : fold name ∈ [fold plural, fold singular]) :
    r'.renameBreed name b.plural b.singular = .ok (r, [.renamed .breeds plural b.plural]) := by
  have hr' := hr.renameBreed h
  obtain ⟨before, after, hsplit, rfl, -, hfree, -, -⟩ := hr.renameBreed_spec hb hanswers h
  have hdeclared := hr.breeds b hb
  have hlocate := hr'.locateBreed_of_split (b := { b with plural, singular }) rfl hdeclared.custom
    (answersTo_iff_mem.2 hname)
  have hnames : checkBreedNames
      ⟨before ++ { b with plural, singular } :: after, r.vars.map (Variable.follow b.plural plural)⟩
      [plural, singular] b.plural b.singular = .ok () := by
    -- beside the same other entries the old names are free now as they were before
    have hperm := names_breed_perm before after b r.vars
    rw [← hsplit] at hperm
    have hperm' := names_breed_perm before after { b with plural, singular } r.vars
    rw [← names_follow _ r.vars b.plural plural] at hperm'
    rw [checkBreedNames_eq_ok, admits_iff_freeBeside hperm' hr'.distinct,
      admits_iff_freeBeside hperm' hr'.distinct]
    exact ⟨freeBeside_respelled hperm hr.distinct hdeclared.plural (by simp) rfl,
      freeBeside_respelled hperm hr.distinct hdeclared.singular (by simp) rfl,
      hr.plural_ne_singular hb⟩
  have hvars : (r.vars.map (Variable.follow b.plural plural)).map
      (Variable.follow plural b.plural) = r.vars := by
    rw [List.map_map]
    refine (List.map_congr_left fun v hv => ?_).trans (List.map_id _)
    rw [Function.comp_apply, hr.follow_follow hb hsplit hfree hv, id_eq]
  rw [renameBreed_of_check hlocate hnames, hvars, ← hsplit]

theorem Coherent.renameVariable_back (hr : r.Coherent) {v : Variable} (hv : v ∈ r.vars)
    {old new : String} (hsame : fold v.name = fold old)
    (h : r.renameVariable old new = .ok (r', events)) {name : String}
    (hname : fold new = fold name) :
    r'.renameVariable name v.name = .ok (r, [.renamed .vars new v.name]) := by
  have hr' := hr.renameVariable h
  obtain ⟨before, after, hlocate, hperm, -⟩ := hr.exists_locateVariable hv hsame
  obtain ⟨before', v', after', hlocate', -, rfl, -⟩ := renameVariable_eq_ok h
  rw [hlocate] at hlocate'
  cases hlocate'
  obtain ⟨hsplit, -, -⟩ := locateVariable_eq_ok hlocate
  have hback := hr'.locateVariable_of_split (v := { v with name := new }) rfl hname
  have hperm' := names_variable_perm r.breeds before after { v with name := new }
  have hfree := freeBeside_respelled hperm hr.distinct (hr.vars v hv) (by simp) rfl
  have hcheck := checkName_eq_ok.2 ((admits_iff_freeBeside hperm' hr'.distinct).2 hfree)
  rw [renameVariable_of_check hback hcheck, ← hsplit]

/-- A rename that is accepted is taken back by the rename to the names that the entry had before. It
leads back to the registries themselves, whichever of the new names is used for it. -/
structure UndoesRenames (r : Registries) : Prop where
  breeds : ∀ old plural singular r' events, r.renameBreed old plural singular = .ok (r', events) →
    ∃ b, r.findBreed? old = some b ∧ ∀ name, fold name ∈ [fold plural, fold singular] →
      r'.renameBreed name b.plural b.singular = .ok (r, [.renamed .breeds plural b.plural])
  vars : ∀ old new r' events, r.renameVariable old new = .ok (r', events) →
    ∃ v, r.findVariable? old = some v ∧ ∀ name, fold name = fold new →
      r'.renameVariable name v.name = .ok (r, [.renamed .vars new v.name])

theorem Coherent.undoesRenames (hr : r.Coherent) : r.UndoesRenames where
  breeds old plural singular r' events h := by
    obtain ⟨b, hb, hanswers⟩ := renameBreed_addresses h
    refine ⟨b, hr.findBreed?_eq_some (List.mem_filter.1 hb).1 hanswers, fun name hname => ?_⟩
    exact hr.renameBreed_back hb hanswers h hname
  vars old new r' events h := by
    obtain ⟨v, hv, hsame⟩ := renameVariable_addresses h
    refine ⟨v, hr.findVariable?_eq_some hv hsame, fun name hname => ?_⟩
    exact hr.renameVariable_back hv hsame h hname.symm

end Registries

namespace RegistryEdit

/-- After any edits of a model without declarations every accepted rename can be undone. -/
theorem undoesRenames_run (edits : List RegistryEdit) : (run .empty edits).UndoesRenames :=
  (coherent_run Registries.coherent_empty edits).undoesRenames

/-- The two names of a breed are changed over, in other cases, and back again. -/
theorem undoesRenames_changedOver :
    ∃ r' events, (run .empty hungerEdits).renameBreed "Wolf" "WOLF" "Wolves" = .ok (r', events) ∧
      r'.renameBreed "wolves" "wolves" "wolf" =
        .ok (run .empty hungerEdits, [.renamed .breeds "WOLF" "wolves"]) := by
  have hsingular : fold "WOLF" = "wolf" ∧ fold "wolf" = "wolf" := by decide +kernel
  have hplural : fold "Wolves" = "wolves" ∧ fold "wolves" = "wolves" := by decide +kernel
  have hr := coherent_run Registries.coherent_empty hungerEdits
  have hmem : ⟨"wolves", "wolf", .turtle, false⟩ ∈ (run .empty hungerEdits).customBreeds := by
    rw [run_hungerEdits]
    decide
  obtain ⟨⟨r', events⟩, h⟩ := hr.respells.breeds _ hmem "Wolf" answersTo_wolf "WOLF" "Wolves"
    (.inr ⟨hsingular.1.trans hsingular.2.symm, hplural.1.trans hplural.2.symm⟩)
  obtain ⟨b, hfound, hback⟩ := (undoesRenames_run hungerEdits).breeds _ _ _ _ _ h
  rw [hr.findBreed?_eq_some (List.mem_filter.1 hmem).1 answersTo_wolf] at hfound
  cases hfound
  exact ⟨r', events, h, hback "wolves" (by simp [hplural])⟩

end RegistryEdit

end AgentBlocks
