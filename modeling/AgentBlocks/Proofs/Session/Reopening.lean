import AgentBlocks.Proofs.Registry.Persistence
import AgentBlocks.Proofs.Session.Log

/-!
Saving a session and opening it again. The registries of a session stay coherent, so what it saves
is accepted and gives them back. Its last error and its output belong to its present state, so the
generation that opens the saved session finds them again, except for an output that is older than
the error.
-/
namespace AgentBlocks

open Registries

namespace Project

variable {r : Registries} {w : Workspace}

theorem parts_capture (hr : r.Coherent) (w : Workspace) : (capture r w).parts = .ok (r, w) := by
  rw [capture, parts, restore, hr.ofSnapshot_snapshot]
  rfl

theorem coherent_of_parts {p : Project} (h : p.parts = .ok (r, w)) : r.Coherent := by
  rw [parts] at h
  cases hrestore : Registries.empty.restore p.registries with
  | error e =>
      rw [hrestore] at h
      cases h
  | ok restored =>
      rw [hrestore] at h
      cases h
      exact coherent_ofSnapshot (restore_eq_ok hrestore).1

end Project

namespace Session

variable {c : Catalog} {s : Session}

theorem ofProject_eq_ok {p : Project} (h : ofProject c p = .ok s) :
    ∃ r w, p.parts = .ok (r, w) ∧
      s = { new c with registries := r, workspace := w }.regenerate := by
  obtain ⟨⟨r, w⟩, hparts, hs⟩ := except_bind_eq_ok.1 h
  cases hs
  exact ⟨r, w, hparts, rfl⟩

/-- A session with the default options whose registries are coherent and whose output and last error
are those of its state. -/
structure Settled (c : Catalog) (s : Session) : Prop where
  setup : s.catalog = c ∧ s.options = .default
  registries : s.registries.Coherent
  current : ∃ generated, s.Current generated

theorem settled_new (c : Catalog) : Settled c (new c) :=
  ⟨⟨rfl, rfl⟩, coherent_empty, [], current_opened c none false⟩

theorem settled_ofProject {p : Project} (h : ofProject c p = .ok s) : Settled c s := by
  obtain ⟨r, w, hparts, rfl⟩ := ofProject_eq_ok h
  have hlatest : "" = (latestText []).getD "" := rfl
  have hcurrent :=
    current_regenerate (s := { new c with registries := r, workspace := w }) hlatest
  obtain ⟨output, lastError, runtime, hregenerate⟩ :=
    regenerate_eq { new c with registries := r, workspace := w }
  rw [hregenerate] at hcurrent ⊢
  exact ⟨⟨rfl, rfl⟩, Project.coherent_of_parts hparts, _, hcurrent⟩

theorem registries_regenerate (s : Session) : s.regenerate.registries = s.registries := by
  obtain ⟨output, lastError, runtime, hregenerate⟩ := s.regenerate_eq
  rw [hregenerate]

theorem coherent_step (hs : s.registries.Coherent) (step : SessionStep) :
    (s.step step).registries.Coherent := by
  cases step with
  | event event w =>
      rw [step, handleEvent]
      split
      · rw [registries_regenerate]
        exact hs
      · exact hs
  | edit edit =>
      rw [step, editRegistries_edit]
      cases hchange : edit.change s.registries with
      | error e => exact hs
      | ok changed =>
          rw [registries_regenerate]
          exact hs.change hchange

theorem Settled.step (hs : Settled c s) (step : SessionStep) : Settled c (s.step step) := by
  obtain ⟨⟨hcatalog, hoptions⟩, hregistries, generated, hcurrent⟩ := hs
  refine ⟨?_, coherent_step hregistries step, _, hcurrent.step step⟩
  obtain ⟨hcatalog', hoptions'⟩ := s.setup_perform step.call
  rw [step_eq_perform]
  exact ⟨hcatalog'.trans hcatalog, hoptions'.trans hoptions⟩

theorem Settled.run (hs : Settled c s) (steps : List SessionStep) : Settled c (s.run steps) := by
  induction steps generalizing s with
  | nil => exact hs
  | cons step rest ih => exact ih (hs.step step)

/-- A settled session that is saved and opened again comes back as it was, without an output when it
has an error. -/
theorem Settled.reopen (hs : Settled c s) :
    ∃ reopened, ofProject c s.toProject = .ok reopened ∧
      reopened.registries = s.registries ∧ reopened.workspace = s.workspace ∧
      reopened.lastError = s.lastError ∧
      reopened.output = if s.lastError = none then s.output else "" := by
  obtain ⟨⟨hcatalog, hoptions⟩, hregistries, generated, hcurrent⟩ := hs
  have hparts := Project.parts_capture hregistries s.workspace
  have hprogram :
      { new c with registries := s.registries, workspace := s.workspace }.program = s.program := by
    rw [program, program, hcatalog, hoptions]
    rfl
  refine ⟨_, ofProject_of_parts hparts, ?_⟩
  cases herror : s.lastError with
  | none =>
      rw [hcurrent.output herror] at hprogram
      rw [regenerate_of_ok hprogram]
      exact ⟨rfl, rfl, rfl, rfl⟩
  | some e =>
      rw [(hcurrent.lastError e).1 herror] at hprogram
      rw [regenerate_of_error hprogram]
      exact ⟨rfl, rfl, rfl, rfl⟩

/-- Any session with the default options, new or opened from a project, that is saved after any
steps can be opened again. It has the same registries, the same graph and the same last error then,
and its output is the one that was saved, or none when there is an error. -/
theorem ofProject_toProject_run (hs : s = new c ∨ ∃ p, ofProject c p = .ok s)
    (steps : List SessionStep) :
    let s' := s.run steps
    ∃ reopened, ofProject c s'.toProject = .ok reopened ∧
      reopened.registries = s'.registries ∧ reopened.workspace = s'.workspace ∧
      reopened.lastError = s'.lastError ∧
      reopened.output = if s'.lastError = none then s'.output else "" := by
  rcases hs with rfl | ⟨p, hp⟩
  · exact ((settled_new c).run steps).reopen
  · exact ((settled_ofProject hp).run steps).reopen

/-- A breed is declared and made, and then an unknown block takes the place of the one that makes
it. -/
def staleSteps : List SessionStep :=
  let creation := (Block.new "agent_create").withField "BREED" (.text "wolves") |>.atTopLevel 0 0
  [.edit (.addBreed "wolves" "wolf" .turtle),
    .event .create (Workspace.empty.insert "create" creation),
    .event .change (Workspace.empty.insert "old" (Block.new "legacy_block" |>.atTopLevel 0 0))]

theorem ofProject_toProject_stale :
    ((new .standard).run staleSteps).output = "breed [ wolves wolf ]\n\ncreate-wolves 1" ∧
      ∃ reopened, ofProject .standard ((new .standard).run staleSteps).toProject = .ok reopened ∧
        reopened.registries.customBreeds = [⟨"wolves", "wolf", .turtle, false⟩] ∧
        reopened.lastError = some (.unknownBlockType "legacy_block" "old") ∧
        reopened.output = "" := by
  obtain ⟨reopened, hreopened, hregistries, -, herror, houtput⟩ :=
    ofProject_toProject_run (c := .standard) (.inl rfl) staleSteps
  obtain ⟨hold, hbreeds, hlast⟩ :
      ((new .standard).run staleSteps).output = "breed [ wolves wolf ]\n\ncreate-wolves 1" ∧
        ((new .standard).run staleSteps).registries.customBreeds =
          [⟨"wolves", "wolf", .turtle, false⟩] ∧
        ((new .standard).run staleSteps).lastError =
          some (.unknownBlockType "legacy_block" "old") := by
    decide +kernel
  refine ⟨hold, reopened, hreopened, ?_, herror.trans hlast, ?_⟩
  · rw [hregistries, hbreeds]
  · rw [houtput, hlast]
    rfl

end Session

end AgentBlocks
