import AgentBlocks.Proofs.Registry.Observation
import AgentBlocks.Proofs.Registry.Undo

/-!
Notifications of cascades. An edit of a breed reaches the variables that the breed owns: a removal
takes them along, a renaming gives them the new plural as their scope. A removal tells of each of
them; a renaming tells of the breed alone, and what it does to the variables is left to be inferred.
-/
namespace AgentBlocks

open Text

/-- The event tells of the variable with the given name. -/
def RegistryEvent.isAbout (name : String) : RegistryEvent → Bool
  | .added .vars n | .removed .vars n => n == name
  | .renamed .vars old new => old == name || new == name
  | .added .breeds _ | .removed .breeds _ | .renamed .breeds _ _ | .reset => false

namespace Registries

variable {r r' : Registries} {events : List RegistryEvent}

/-- Every variable whose record is changed has an event of its own. -/
def TellsOfEach (r r' : Registries) (events : List RegistryEvent) : Prop :=
  ∀ v ∈ r.vars, v ∉ r'.vars → ∃ event ∈ events, event.isAbout v.name = true

/-- No other variable has the name. -/
theorem Coherent.filter_name (hr : r.Coherent) {v : Variable} (hv : v ∈ r.vars) :
    r.vars.filter (·.name == v.name) = [v] := by
  have hsame : r.vars.filter (·.name == v.name) = r.vars.filter (· == v) := by
    refine List.filter_congr fun w hw => ?_
    rw [Bool.eq_iff_iff, beq_iff_eq, beq_iff_eq]
    exact ⟨List.inj_on_of_nodup_map hr.nodup_varNames hw hv, congrArg Variable.name⟩
  rw [hsame, List.filter_beq, List.count_eq_one_of_mem hr.nodup_varNames.of_map hv]
  rfl

/-- Of the events of a removal those about a variable are one, when the breed owns it, or none. -/
theorem Coherent.filter_isAbout (hr : r.Coherent) {v : Variable} (hv : v ∈ r.vars)
    (plural : String) :
    ((r.variablesIn (.breed plural)).map (fun w : Variable => RegistryEvent.removed .vars w.name) ++
        [RegistryEvent.removed .breeds plural]).filter (·.isAbout v.name) =
      if v.scope = .breed plural then [.removed .vars v.name] else [] := by
  have hvars : (r.variablesIn (.breed plural)).filter (·.name == v.name) =
      if v.scope = .breed plural then [v] else [] := by
    rw [variablesIn, List.filter_comm, hr.filter_name hv, List.filter_singleton]
    simp
  have habout : (fun w : Variable => (RegistryEvent.removed .vars w.name).isAbout v.name) =
      (·.name == v.name) := rfl
  have hbreed : (RegistryEvent.removed .breeds plural).isAbout v.name = false := rfl
  rw [List.filter_append, List.filter_map, Function.comp_def, habout, hvars,
    List.filter_singleton, hbreed]
  split <;> rfl

/-- A removal tells once of each variable that goes, and of no other. -/
theorem Coherent.told_removeBreed (hr : r.Coherent) {name : String}
    (h : r.removeBreed name = .ok (r', events)) :
    ∃ b ∈ r.customBreeds, b.answersTo name = true ∧ .removed .breeds b.plural ∈ events ∧
      ∀ v ∈ r.vars, events.filter (·.isAbout v.name) =
        if v ∈ r'.vars then [] else [.removed .vars v.name] := by
  obtain ⟨b, hb, hanswers⟩ := removeBreed_addresses h
  rw [hr.removeBreed_eq hb hanswers] at h
  cases h
  refine ⟨b, hb, hanswers, by simp, fun v hv => ?_⟩
  have hkept : v ∈ (r.withoutBreed b).vars ↔ v.scope ≠ .breed b.plural := by
    simp [withoutBreed, hv]
  rw [hr.filter_isAbout hv]
  simp only [hkept, ne_eq, ite_not]

/-- A renaming changes the records of the variables that the breed owns, when it respells the
plural. -/
theorem Coherent.not_mem_vars_renameBreed (hr : r.Coherent) {b : Breed} (hb : b ∈ r.customBreeds)
    {name plural singular : String} (hanswers : b.answersTo name = true)
    (h : r.renameBreed name plural singular = .ok (r', events)) {v : Variable} (hv : v ∈ r.vars) :
    v ∉ r'.vars ↔ v.scope = .breed b.plural ∧ plural ≠ b.plural := by
  rw [hr.vars_renameBreed hb hanswers h, List.mem_map]
  constructor
  · intro hgone
    by_cases hscope : v.scope = .breed b.plural
    · refine ⟨hscope, fun hsame => hgone ⟨v, hv, ?_⟩⟩
      rw [if_pos hscope, hsame, ← hscope]
    · exact absurd ⟨v, hv, if_neg hscope⟩ hgone
  · rintro ⟨hscope, hne⟩ ⟨w, hw, hwv⟩
    have hname : w.name = v.name := by
      rw [← hwv]
      split <;> rfl
    obtain rfl := List.inj_on_of_nodup_map hr.nodup_varNames hw hv hname
    rw [if_pos hscope] at hwv
    have hplural := (congrArg Variable.scope hwv).trans hscope
    exact hne (Scope.breed.inj hplural)

/-- A renaming tells of its variables only when there is nothing to tell. -/
theorem Coherent.told_renameBreed (hr : r.Coherent) {old plural singular : String}
    (h : r.renameBreed old plural singular = .ok (r', events)) :
    ∃ b ∈ r.customBreeds, b.answersTo old = true ∧ events = [.renamed .breeds b.plural plural] ∧
      (∀ v ∈ r.vars, v ∉ r'.vars ↔ v.scope = .breed b.plural ∧ plural ≠ b.plural) ∧
      (r.TellsOfEach r' events ↔ plural = b.plural ∨ r.variablesIn (.breed b.plural) = []) := by
  obtain ⟨b, hb, hanswers⟩ := renameBreed_addresses h
  have hchanged := fun v hv => hr.not_mem_vars_renameBreed hb hanswers h (v := v) hv
  obtain ⟨-, -, -, -, rfl, -⟩ := hr.renameBreed_spec hb hanswers h
  have htold : ∀ v : Variable, ¬∃ event ∈ [RegistryEvent.renamed .breeds b.plural plural],
      event.isAbout v.name = true := by
    simp [RegistryEvent.isAbout]
  refine ⟨b, hb, hanswers, rfl, hchanged, ?_⟩
  rw [variablesIn, List.filter_eq_nil_iff]
  constructor
  · intro htells
    by_cases hsame : plural = b.plural
    · exact .inl hsame
    · refine .inr fun v hv howned => htold v (htells v hv ((hchanged v hv).2 ⟨?_, hsame⟩))
      exact beq_iff_eq.1 howned
  · rintro hnone v hv hgone
    obtain ⟨hscope, hne⟩ := (hchanged v hv).1 hgone
    exact absurd (beq_iff_eq.2 hscope) (hnone.resolve_left hne v hv)

/-- What an edit of a breed tells, beside the breed, of the variables that it reaches. -/
structure TellsOfCascades (r : Registries) : Prop where
  remove : ∀ name r' events, r.removeBreed name = .ok (r', events) →
    ∃ b ∈ r.customBreeds, b.answersTo name = true ∧ .removed .breeds b.plural ∈ events ∧
      ∀ v ∈ r.vars, events.filter (·.isAbout v.name) =
        if v ∈ r'.vars then [] else [.removed .vars v.name]
  rename : ∀ old plural singular r' events, r.renameBreed old plural singular = .ok (r', events) →
    ∃ b ∈ r.customBreeds, b.answersTo old = true ∧ events = [.renamed .breeds b.plural plural] ∧
      (∀ v ∈ r.vars, v ∉ r'.vars ↔ v.scope = .breed b.plural ∧ plural ≠ b.plural) ∧
      (r.TellsOfEach r' events ↔ plural = b.plural ∨ r.variablesIn (.breed b.plural) = [])

end Registries

namespace RegistryEdit

open Registries

/-- After any edits of a model without declarations, the removal of a breed tells once of each
variable that goes with it. Its renaming tells of no variable, so that a change of their records is
told only when there is none: when the plural stays or the breed owns no variable. -/
theorem tellsOfCascades_run (edits : List RegistryEdit) : (run .empty edits).TellsOfCascades where
  remove _ _ _ h := (coherent_run coherent_empty edits).told_removeBreed h
  rename _ _ _ _ _ h := (coherent_run coherent_empty edits).told_renameBreed h

/-- The removal of the wolves tells of their hunger, and their renaming does not. -/
theorem tellsOfCascades_hungerEdits :
    (∃ r' events, (run .empty hungerEdits).removeBreed "Wolf" = .ok (r', events) ∧
      events.filter (·.isAbout "hunger") = [.removed .vars "hunger"]) ∧
    ∃ r' events, (run .empty hungerEdits).renameBreed "Wolf" "dogs" "dog" = .ok (r', events) ∧
      ⟨"hunger", .breed "wolves"⟩ ∉ r'.vars ∧ events = [.renamed .breeds "wolves" "dogs"] := by
  have htells := tellsOfCascades_run hungerEdits
  have hmem : ⟨"hunger", .breed "wolves"⟩ ∈ (run .empty hungerEdits).vars := by
    rw [run_hungerEdits]
    exact List.mem_cons_self
  have hbreed : ⟨"wolves", "wolf", .turtle, false⟩ ∈ (run .empty hungerEdits).customBreeds := by
    rw [run_hungerEdits]
    decide
  have hremove := (coherent_run coherent_empty hungerEdits).removeBreed_eq hbreed answersTo_wolf
  obtain ⟨-, -, -, -, htold⟩ := htells.remove _ _ _ hremove
  obtain ⟨b, -, -, hevents, hchanged, -⟩ := htells.rename _ _ _ _ _ renameBreed_hungerEdits
  have hplural : b.plural = "wolves" := by simpa [eq_comm] using hevents
  refine ⟨⟨_, _, hremove, ?_⟩, _, _, renameBreed_hungerEdits, ?_, rfl⟩
  · rw [htold _ hmem, if_neg (by simp [withoutBreed])]
  · rw [hchanged _ hmem, hplural]
    exact ⟨rfl, by decide⟩

/-- The record of a variable changes without an event of its own. -/
theorem not_tellsOfEach_hungerEdits :
    ¬∀ r' events, (run .empty hungerEdits).renameBreed "Wolf" "dogs" "dog" = .ok (r', events) →
      (run .empty hungerEdits).TellsOfEach r' events := by
  intro htells
  have hmem : ⟨"hunger", .breed "wolves"⟩ ∈ (run .empty hungerEdits).vars := by
    rw [run_hungerEdits]
    exact List.mem_cons_self
  obtain ⟨event, hevent, habout⟩ := htells _ _ renameBreed_hungerEdits _ hmem (by decide)
  cases List.mem_singleton.1 hevent
  cases habout

end RegistryEdit

end AgentBlocks
