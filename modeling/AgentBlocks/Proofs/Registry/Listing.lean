import AgentBlocks.Proofs.Registry.Addressing
import AgentBlocks.Proofs.Registry.Extent
import AgentBlocks.Proofs.Registry.Replay

/-!
Variables listed by their scope. A new variable may name its breed in any case, but it is stored,
and listed, under the plural as the breed spells it, and it stays there until an edit concerns it.
-/
namespace AgentBlocks

open Text

namespace RegistryEdit

/-- The edit is about the variable: it renames or removes the variable or the breed that is its
scope, or it replaces everything. -/
def Concerns (r : Registries) (v : Variable) : RegistryEdit → Prop
  | .renameVariable old _ => fold old = fold v.name
  | .removeVariable name => fold name = fold v.name
  | .renameBreed name _ _ | .removeBreed name =>
    ∃ b, r.findBreed? name = some b ∧ v.scope = .breed b.plural
  | .reset | .restore _ => True
  | .addBreed .. | .addVariable .. => False

/-- None of the edits that are accepted is about the variable. -/
def Spares (v : Variable) : Registries → List RegistryEdit → Prop
  | _, [] => True
  | r, edit :: rest =>
    ((∃ out, edit.change r = .ok out) → ¬edit.Concerns r v) ∧ Spares v (edit.apply r) rest

end RegistryEdit

namespace Registries

variable {r r' : Registries} {events : List RegistryEvent} {v : Variable}

/-- A variable stays when a breed is renamed that is not its scope. -/
theorem Coherent.mem_vars_renameBreed (hr : r.Coherent) (hv : v ∈ r.vars)
    {name plural singular : String}
    (h : r.renameBreed name plural singular = .ok (r', events))
    (hspared : ¬∃ b, r.findBreed? name = some b ∧ v.scope = .breed b.plural) : v ∈ r'.vars := by
  obtain ⟨b, hb, hanswers⟩ := renameBreed_addresses h
  have hfound := hr.findBreed?_eq_some (List.mem_filter.1 hb).1 hanswers
  rw [hr.vars_renameBreed hb hanswers h]
  exact List.mem_map.2 ⟨v, hv, if_neg fun hscope => hspared ⟨b, hfound, hscope⟩⟩

theorem Coherent.mem_vars_removeBreed (hr : r.Coherent) (hv : v ∈ r.vars) {name : String}
    (h : r.removeBreed name = .ok (r', events))
    (hspared : ¬∃ b, r.findBreed? name = some b ∧ v.scope = .breed b.plural) : v ∈ r'.vars := by
  obtain ⟨b, hb, hanswers⟩ := removeBreed_addresses h
  have hfound := hr.findBreed?_eq_some (List.mem_filter.1 hb).1 hanswers
  rw [hr.removeBreed_eq hb hanswers] at h
  cases h
  exact List.mem_filter.2 ⟨hv, decide_eq_true fun hscope => hspared ⟨b, hfound, hscope⟩⟩

/-- A variable with another name stands before or after the one that is found. -/
theorem mem_beside {name : String} {before after : List Variable} {w : Variable}
    (hlocate : r.locateVariable name = .ok (before, w, after)) (hv : v ∈ r.vars)
    (hne : fold name ≠ fold v.name) : v ∈ before ∨ v ∈ after := by
  obtain ⟨hsplit, -, -⟩ := locateVariable_eq_ok hlocate
  obtain ⟨-, hsame⟩ := locateVariable_mem hlocate
  rw [hsplit, List.mem_append, List.mem_cons] at hv
  rcases hv with hbefore | rfl | hafter
  · exact .inl hbefore
  · exact absurd hsame.symm hne
  · exact .inr hafter

/-- A variable stays under an edit that is not about it. -/
theorem Coherent.mem_vars_change (hr : r.Coherent) (hv : v ∈ r.vars) {edit : RegistryEdit}
    (h : edit.change r = .ok (r', events)) (hspared : ¬edit.Concerns r v) : v ∈ r'.vars := by
  cases edit with
  | addBreed plural singular kind =>
      obtain ⟨-, -, rfl, -⟩ := addBreed_eq_ok h
      exact hv
  | renameBreed name plural singular => exact hr.mem_vars_renameBreed hv h hspared
  | removeBreed name => exact hr.mem_vars_removeBreed hv h hspared
  | addVariable name scope =>
      obtain ⟨stored, -, -, rfl, -⟩ := addVariable_eq_ok h
      exact List.mem_append_left _ hv
  | renameVariable old new =>
      obtain ⟨before, w, after, hlocate, -, rfl, -⟩ := renameVariable_eq_ok h
      rcases mem_beside hlocate hv hspared with hbefore | hafter
      · exact List.mem_append_left _ hbefore
      · exact List.mem_append_right _ (List.mem_cons_of_mem _ hafter)
  | removeVariable name =>
      obtain ⟨before, w, after, hlocate, rfl, -⟩ := removeVariable_eq_ok h
      exact List.mem_append.2 (mem_beside hlocate hv hspared)
  | reset => exact absurd trivial hspared
  | restore snapshot => exact absurd trivial hspared

theorem Coherent.mem_vars_run (hr : r.Coherent) (hv : v ∈ r.vars) {edits : List RegistryEdit}
    (hspared : RegistryEdit.Spares v r edits) : v ∈ (RegistryEdit.run r edits).vars := by
  induction edits generalizing r with
  | nil => exact hv
  | cons edit rest ih =>
      obtain ⟨hfirst, hrest⟩ := hspared
      refine ih (hr.apply edit) ?_ hrest
      cases hchange : edit.change r with
      | error e =>
          -- a refused edit leaves everything as it is
          rwa [(RegistryEdit.refused hchange).1]
      | ok changed =>
          obtain ⟨r', events⟩ := changed
          have happly : edit.apply r = r' := by simp only [RegistryEdit.apply, hchange]
          rw [happly]
          exact hr.mem_vars_change hv hchange (hfirst ⟨_, hchange⟩)

/-- A new variable is stored under its scope as it is, or under the plural of the declared breed
that the scope spells. -/
theorem Coherent.resolveScope_cases (hr : r.Coherent) {scope stored : Scope}
    (h : r.resolveScope scope = .ok stored) :
    scope = stored ∨ ∃ b ∈ r.customBreeds, ∃ owner, fold owner = fold b.plural ∧
      scope = .breed owner ∧ stored = .breed b.plural := by
  cases scope with
  | breed owner =>
      obtain ⟨b, hb, hsame⟩ := exists_breed_of_resolveScope h
      rw [hr.resolveScope_spelled hb hsame] at h
      cases h
      exact .inr ⟨b, hb, owner, hsame.symm, rfl, rfl⟩
  | global | turtles | patches | links =>
      cases h
      exact .inl rfl

/-- A variable is listed under its own scope and under no other. -/
theorem Coherent.listed_iff (hr : r.Coherent) (hv : v ∈ r.vars) (scope : Scope) :
    (∃ w ∈ r.variablesIn scope, w.name = v.name) ↔ scope = v.scope := by
  constructor
  · rintro ⟨w, hw, hname⟩
    obtain ⟨hmem, hscope⟩ := List.mem_filter.1 hw
    obtain rfl := List.inj_on_of_nodup_map hr.nodup_varNames hmem hv hname
    exact (beq_iff_eq.1 hscope).symm
  · rintro rfl
    exact ⟨v, List.mem_filter.2 ⟨hv, beq_self_eq_true _⟩, rfl⟩

/-- Under another spelling than its own a breed has no variables. -/
theorem Coherent.variablesIn_spelled (hr : r.Coherent) {b : Breed} (hb : b ∈ r.customBreeds)
    {owner : String} (hsame : fold owner = fold b.plural) :
    r.variablesIn (.breed owner) =
      if owner = b.plural then r.variablesIn (.breed b.plural) else [] := by
  split
  · rename_i heq
    rw [heq]
  · rename_i hne
    refine List.filter_eq_nil_iff.2 fun v hv howned => hne ?_
    obtain ⟨c, hc, hplural⟩ := hr.owners v hv owner (beq_iff_eq.1 howned)
    rw [← hplural, hr.eq_of_plural hc hb (hplural ▸ hsame)]

/-- Where variables are listed. One that is added stays in the list of the scope under which it is
stored until an edit is about it, so it is in the list of the scope that it was added under exactly
when this is the spelling that is stored. Every spelling of a plural is accepted as an owner, and
all but the declared one have empty lists. -/
structure ListsByScope (r : Registries) : Prop where
  added : ∀ name scope r' events, r.addVariable name scope = .ok (r', events) →
    ∃ stored, r.resolveScope scope = .ok stored ∧
      (scope = stored ∨ ∃ b ∈ r.customBreeds, ∃ owner, fold owner = fold b.plural ∧
        scope = .breed owner ∧ stored = .breed b.plural) ∧
      ∀ later, RegistryEdit.Spares ⟨name, stored⟩ r' later →
        ⟨name, stored⟩ ∈ (RegistryEdit.run r' later).variablesIn stored ∧
        ((∃ v ∈ (RegistryEdit.run r' later).variablesIn scope, v.name = name) ↔ scope = stored)
  spelled : ∀ b ∈ r.customBreeds, ∀ owner, fold owner = fold b.plural →
    r.resolveScope (.breed owner) = .ok (.breed b.plural) ∧
      r.variablesIn (.breed owner) =
        if owner = b.plural then r.variablesIn (.breed b.plural) else []

theorem Coherent.listsByScope (hr : r.Coherent) : r.ListsByScope where
  added name scope r' events h := by
    have hr' := hr.addVariable h
    obtain ⟨stored, -, hscope, rfl, -⟩ := addVariable_eq_ok h
    refine ⟨stored, hscope, hr.resolveScope_cases hscope, fun later hlater => ?_⟩
    have hlast := RegistryEdit.coherent_run hr' later
    have hmem := hr'.mem_vars_run (List.mem_append_right r.vars (List.mem_singleton_self _)) hlater
    exact ⟨List.mem_filter.2 ⟨hmem, beq_self_eq_true _⟩, hlast.listed_iff hmem scope⟩
  spelled b hb owner hsame :=
    ⟨hr.resolveScope_spelled hb hsame.symm, hr.variablesIn_spelled hb hsame⟩

end Registries

namespace RegistryEdit

open Registries

/-- After any edits of a model without declarations variables are listed by the scope under which
they are stored. -/
theorem listsByScope_run (edits : List RegistryEdit) : (run .empty edits).ListsByScope :=
  (coherent_run coherent_empty edits).listsByScope

theorem run_wolves : run .empty [.addBreed "wolves" "wolf" .turtle] =
    ⟨builtinBreeds ++ [⟨"wolves", "wolf", .turtle, false⟩], []⟩ := by decide +kernel

/-- A declared plural is an owner in upper case too. -/
theorem resolveScope_upper : (run .empty [.addBreed "wolves" "wolf" .turtle]).resolveScope
    (.breed "WOLVES") = .ok (.breed "wolves") := by
  have hupper : fold "WOLVES" = "wolves" := by decide +kernel
  have hlower : fold "wolves" = "wolves" := by decide +kernel
  have hr := coherent_run coherent_empty [.addBreed "wolves" "wolf" .turtle]
  rw [run_wolves] at hr ⊢
  exact hr.resolveScope_spelled (b := ⟨"wolves", "wolf", .turtle, false⟩) (by decide)
    (hlower.trans hupper.symm)

theorem addVariable_hunger : (run .empty [.addBreed "wolves" "wolf" .turtle]).addVariable "hunger"
    (.breed "WOLVES") =
      .ok (⟨builtinBreeds ++ [⟨"wolves", "wolf", .turtle, false⟩], [⟨"hunger", .breed "wolves"⟩]⟩,
        [.added .vars "hunger"]) := by
  have hscope := resolveScope_upper
  rw [run_wolves] at hscope ⊢
  exact addVariable_of_free (v := ⟨"hunger", .breed "WOLVES"⟩)
    ⟨by decide +kernel, by decide +kernel⟩ hscope (by decide +kernel)

/-- Edits of another variable leave the hunger in the list of the wolves as they are declared. -/
theorem listsByScope_hunger :
    let later := [.addVariable "rate" .global, .removeVariable "Rate"]
    ∃ r' events, (run .empty [.addBreed "wolves" "wolf" .turtle]).addVariable "hunger"
        (.breed "WOLVES") = .ok (r', events) ∧
      Spares ⟨"hunger", .breed "wolves"⟩ r' later ∧
      ⟨"hunger", .breed "wolves"⟩ ∈ (run r' later).variablesIn (.breed "wolves") ∧
      ¬∃ v ∈ (run r' later).variablesIn (.breed "WOLVES"), v.name = "hunger" := by
  intro later
  have hspared : ∀ r, Spares ⟨"hunger", .breed "wolves"⟩ r later := fun r =>
    ⟨fun _ => id, fun _ => by simp only [Concerns]; decide +kernel, trivial⟩
  obtain ⟨stored, hscope, -, hlisted⟩ :=
    (listsByScope_run _).added _ _ _ _ addVariable_hunger
  cases hscope.symm.trans resolveScope_upper
  obtain ⟨hmem, hlower⟩ := hlisted later (hspared _)
  exact ⟨_, _, addVariable_hunger, hspared _, hmem,
    fun hupper => absurd (hlower.1 hupper) (by decide)⟩

/-- A variable that is added under a scope is missing in the list of that scope. -/
theorem not_listed_hunger :
    ¬∀ r' events, (run .empty [.addBreed "wolves" "wolf" .turtle]).addVariable "hunger"
        (.breed "WOLVES") = .ok (r', events) →
      ∃ v ∈ r'.variablesIn (.breed "WOLVES"), v.name = "hunger" := by
  intro hlisted
  obtain ⟨v, hv, -⟩ := hlisted _ _ addVariable_hunger
  have hscope := (List.mem_filter.1 hv).2
  obtain rfl := List.mem_singleton.1 (List.mem_filter.1 hv).1
  exact absurd (beq_iff_eq.1 hscope) (by decide)

end RegistryEdit

end AgentBlocks
