import AgentBlocks.Catalog.Standard
import AgentBlocks.Proofs.Session.Run
import Mathlib.Data.List.Destutter

/-!
What an attached runtime receives. It is handed the output whenever the output changes, so its log
is the history of the output without repetitions. A runtime that is attached to a session with an
output is therefore behind until the output changes for the first time.
-/
namespace AgentBlocks

/-- A call of a session: a change in the editor with the graph after it, or any action on the
registries. -/
inductive SessionCall : Type 1 where
  | event (event : EditorEvent) (w : Workspace)
  | edit {α : Type} (action : RegistryAction α)

def SessionStep.call : SessionStep → SessionCall
  | .event kind w => .event kind w
  | .edit change => .edit (performEdits [change])

namespace Session

def perform (s : Session) : SessionCall → Session
  | .event event w => (s.handleEvent event w).2
  | .edit action => (s.editRegistries action).2

def performAll (s : Session) (calls : List SessionCall) : Session := calls.foldl perform s

/-- Whether a call makes the session generate its program anew. -/
def renews (s : Session) : SessionCall → Bool
  | .event event _ => event.isMeaningful
  | .edit action => (action s.registries).1.isOk

/-- The output after each call. -/
def outputs (s : Session) : List SessionCall → List String
  | [] => []
  | call :: rest => (s.perform call).output :: (s.perform call).outputs rest

/-- The output after each call that changes it. -/
def news (s : Session) : List SessionCall → List String
  | [] => []
  | call :: rest =>
    let s' := s.perform call
    if s'.output = s.output then s'.news rest else s'.output :: s'.news rest

/-- What a call does for the runtime: nothing, or it hands it a program that becomes the output. -/
inductive Delivers (s s' : Session) : Prop
  | nothing (output : s'.output = s.output) (runtime : s'.runtime = s.runtime)
  | program (lastError : s'.lastError = none) (generated : s'.program = .ok s'.output)
      (new : s'.output ≠ s.output) (runtime : s'.runtime = s.runtime.map (· ++ [s'.output]))

/-- After every call that generates a program, the runtime was handed that program last, unless it
is the empty one. -/
def KeepsUp (s : Session) : Prop :=
  ∀ calls call, (s.performAll calls).renews call = true →
    let s' := (s.performAll calls).perform call
    s'.lastError = none → s'.output ≠ "" → s'.submitted.getLast? = some s'.output

variable {s : Session} {call : SessionCall} {calls : List SessionCall}

theorem step_eq_perform (s : Session) (step : SessionStep) : s.step step = s.perform step.call := by
  cases step <;> rfl

theorem perform_of_renews (h : s.renews call = true) :
    ∃ w r, s.perform call = { s with workspace := w, registries := r }.regenerate := by
  cases call with
  | event event w =>
      refine ⟨w, s.registries, ?_⟩
      have hmeaningful : event.isMeaningful = true := h
      rw [perform, handleEvent, if_pos hmeaningful]
  | edit action =>
      refine ⟨s.workspace, (action s.registries).2, ?_⟩
      rw [renews] at h
      rw [perform, editRegistries]
      rcases haction : action s.registries with ⟨_ | value, r⟩
      · rw [haction] at h
        cases h
      · rfl

/-- An action that fails may still have changed the registries. -/
theorem perform_of_not_renews (h : s.renews call = false) :
    ∃ r, s.perform call = { s with registries := r } := by
  cases call with
  | event event w =>
      refine ⟨s.registries, ?_⟩
      have hview : ¬event.isMeaningful = true := by simpa [renews] using h
      rw [perform, handleEvent, if_neg hview]
  | edit action =>
      refine ⟨(action s.registries).2, ?_⟩
      rw [renews] at h
      rw [perform, editRegistries]
      rcases haction : action s.registries with ⟨_ | value, r⟩
      · rfl
      · rw [haction] at h
        cases h

theorem delivers_regenerate (s : Session) : s.Delivers s.regenerate := by
  have hprogram := s.program_regenerate
  cases h : s.program with
  | error e =>
      rw [regenerate_of_error h]
      exact .nothing rfl rfl
  | ok text =>
      rw [h, regenerate_of_ok h] at hprogram
      rw [regenerate_of_ok h]
      by_cases hsame : text = s.output
      · exact .nothing hsame (if_pos hsame)
      · exact .program rfl hprogram hsame (if_neg hsame)

theorem delivers_perform (s : Session) (call : SessionCall) : s.Delivers (s.perform call) := by
  cases h : s.renews call with
  | false =>
      obtain ⟨r, hs⟩ := perform_of_not_renews h
      rw [hs]
      exact .nothing rfl rfl
  | true =>
      obtain ⟨w, r, hs⟩ := perform_of_renews h
      rw [hs]
      have hdelivers := delivers_regenerate { s with workspace := w, registries := r }
      cases hdelivers with
      | nothing output runtime => exact .nothing output runtime
      | program lastError generated new runtime =>
          exact .program lastError generated new runtime

/-- The runtime receives exactly the news. -/
theorem runtime_performAll (s : Session) (calls : List SessionCall) :
    (s.performAll calls).runtime = s.runtime.map (· ++ s.news calls) := by
  induction calls generalizing s with
  | nil => simp [performAll, news]
  | cons call rest ih =>
      change ((s.perform call).performAll rest).runtime = _
      rw [ih, news]
      cases s.delivers_perform call with
      | nothing output runtime =>
          rw [if_pos output, runtime]
      | program lastError generated new runtime =>
          rw [if_neg new, runtime, Option.map_map]
          congr 1
          funext log
          simp

theorem destutter_outputs (s : Session) (calls : List SessionCall) :
    (s.output :: s.outputs calls).destutter (· ≠ ·) = s.output :: s.news calls := by
  rw [List.destutter_cons']
  induction calls generalizing s with
  | nil => rfl
  | cons call rest ih =>
      have hrest := ih (s.perform call)
      rw [outputs, news]
      by_cases hsame : (s.perform call).output = s.output
      · rw [hsame] at hrest
        rw [if_pos hsame, List.destutter'_cons_neg _ (by simpa using hsame.symm), hrest]
      · rw [if_neg hsame, List.destutter'_cons_pos _ (Ne.symm hsame), hrest]

/-- The last of the news is the present output. -/
theorem getLast?_news (s : Session) (calls : List SessionCall) :
    (s.news calls).getLast?.getD s.output = (s.performAll calls).output := by
  induction calls generalizing s with
  | nil => rfl
  | cons call rest ih =>
      change _ = ((s.perform call).performAll rest).output
      rw [← ih, news]
      by_cases hsame : (s.perform call).output = s.output
      · rw [if_pos hsame, hsame]
      · rw [if_neg hsame, List.getLast?_cons, Option.getD_some]

theorem renews_of_output_ne (h : (s.perform call).output ≠ s.output) :
    s.renews call = true := by
  by_contra hrenews
  obtain ⟨r, hs⟩ := perform_of_not_renews (Bool.not_eq_true _ ▸ hrenews)
  exact h (by rw [hs])

/-- Every one of the news is the program that some call generated. -/
theorem generated_of_mem_news {text : String} (h : text ∈ s.news calls) :
    ∃ before call after, calls = before ++ call :: after ∧
      (s.performAll before).renews call = true ∧
      (s.performAll (before ++ [call])).program = .ok text := by
  induction calls generalizing s with
  | nil => cases h
  | cons call rest ih =>
      have hlater (h : text ∈ (s.perform call).news rest) :
          ∃ before next after, call :: rest = before ++ next :: after ∧
            (s.performAll before).renews next = true ∧
            (s.performAll (before ++ [next])).program = .ok text := by
        obtain ⟨before, next, after, rfl, hrenews, hprogram⟩ := ih h
        exact ⟨call :: before, next, after, rfl, hrenews, hprogram⟩
      rw [news] at h
      cases s.delivers_perform call with
      | nothing output runtime =>
          rw [if_pos output] at h
          exact hlater h
      | program lastError generated new runtime =>
          rw [if_neg new] at h
          rcases List.mem_cons.mp h with rfl | h
          · exact ⟨[], call, rest, rfl, renews_of_output_ne new, generated⟩
          · exact hlater h

theorem runtime_of_lastError (h : (s.perform call).lastError ≠ none) :
    (s.perform call).runtime = s.runtime := by
  cases s.delivers_perform call with
  | nothing output runtime => exact runtime
  | program lastError generated new runtime => exact absurd lastError h

theorem runtime_of_refused {α : Type} {action : RegistryAction α} {e : RegistryError}
    (h : (s.editRegistries action).1 = .error e) :
    (s.editRegistries action).2.runtime = s.runtime := by
  rw [editRegistries] at h ⊢
  rcases haction : action s.registries with ⟨_ | value, r⟩
  · rfl
  · rw [haction] at h
    cases h

/-- The log of a runtime that is attached before the first call is the history of the output, from
the empty one on, without repetitions. So no program is submitted twice in a row, each was
generated by a call, failed and refused calls and those about the view submit nothing, and the last
one submitted is the present output. -/
theorem log_opened (c : Catalog) (options : Option GenerateOptions) (calls : List SessionCall) :
    let s := opened c options true
    let s' := s.performAll calls
    ∃ log, s'.runtime = some log ∧
      log = (("" :: s.outputs calls).destutter (· ≠ ·)).tail ∧
      log.IsChain (· ≠ ·) ∧
      (∀ text ∈ log, ∃ before call after, calls = before ++ call :: after ∧
        (s.performAll before).renews call = true ∧
        (s.performAll (before ++ [call])).program = .ok text) ∧
      (∀ w, (s'.handleEvent .view w).2.runtime = some log) ∧
      (∀ α (action : RegistryAction α) e, (s'.editRegistries action).1 = .error e →
        (s'.editRegistries action).2.runtime = some log) ∧
      (∀ call, (s'.perform call).lastError ≠ none → (s'.perform call).runtime = some log) ∧
      log.getLast?.getD "" = s'.output := by
  intro s s'
  have houtput : s.output = "" := by cases options <;> rfl
  have hruntime : s.runtime = some [] := by cases options <;> rfl
  have hlog : s'.runtime = some (s.news calls) := by rw [s.runtime_performAll, hruntime]; rfl
  have houtputs := s.destutter_outputs calls
  have hlast := s.getLast?_news calls
  rw [houtput] at houtputs hlast
  have hchain : ("" :: s.news calls).IsChain (· ≠ ·) := by
    rw [← houtputs]
    exact List.isChain_destutter _ _
  refine ⟨s.news calls, hlog, by rw [houtputs]; rfl, hchain.tail,
    fun _ => generated_of_mem_news, fun _ => hlog, fun _ _ _ h => ?_, fun _ h => ?_, hlast⟩
  · rw [runtime_of_refused h, hlog]
  · rw [runtime_of_lastError h, hlog]

/-! A runtime that is attached to a session with an output. -/

theorem news_eq_nil (s : Session) (calls : List SessionCall) :
    s.news calls = [] ↔ ∀ text ∈ s.outputs calls, text = s.output := by
  induction calls generalizing s with
  | nil => simp [news, outputs]
  | cons call rest ih =>
      rw [news, outputs, List.forall_mem_cons]
      by_cases hsame : (s.perform call).output = s.output
      · rw [if_pos hsame, ih, hsame]
        simp
      · simp [hsame]

theorem submitted_performAll (s : Session) (calls : List SessionCall) :
    (s.withRuntime.performAll calls).submitted = s.withRuntime.news calls := by
  rw [submitted, runtime_performAll]
  rfl

/-- An attached runtime was handed the present output last exactly when the output has changed
since. -/
theorem getLast?_submitted (s : Session) (calls : List SessionCall) :
    (s.withRuntime.performAll calls).submitted.getLast? =
        some (s.withRuntime.performAll calls).output ↔
      ∃ text ∈ s.withRuntime.outputs calls, text ≠ s.output := by
  have hchanged := not_congr (s.withRuntime.news_eq_nil calls)
  push Not at hchanged
  rw [submitted_performAll, ← getLast?_news]
  refine Iff.trans ?_ hchanged
  cases s.withRuntime.news calls with
  | nil => simp
  | cons text later => simp [List.getLast?_cons]

theorem output_mem_outputs (s : Session) (calls : List SessionCall) (call : SessionCall) :
    ((s.performAll calls).perform call).output ∈ s.outputs (calls ++ [call]) := by
  induction calls generalizing s with
  | nil => exact List.mem_cons_self
  | cons first rest ih => exact List.mem_cons_of_mem _ (ih (s.perform first))

theorem performAll_concat (s : Session) (calls : List SessionCall) (call : SessionCall) :
    s.performAll (calls ++ [call]) = (s.performAll calls).perform call := by
  simp [performAll]

theorem setup_perform (s : Session) (call : SessionCall) :
    (s.perform call).catalog = s.catalog ∧ (s.perform call).options = s.options := by
  cases h : s.renews call with
  | false =>
      obtain ⟨r, hs⟩ := perform_of_not_renews h
      rw [hs]
      exact ⟨rfl, rfl⟩
  | true =>
      obtain ⟨w, r, hs⟩ := perform_of_renews h
      obtain ⟨output, lastError, runtime, hregenerate⟩ :=
        regenerate_eq { s with workspace := w, registries := r }
      rw [hs, hregenerate]
      exact ⟨rfl, rfl⟩

theorem setup_performAll (s : Session) (calls : List SessionCall) :
    (s.performAll calls).catalog = s.catalog ∧ (s.performAll calls).options = s.options := by
  induction calls generalizing s with
  | nil => exact ⟨rfl, rfl⟩
  | cons call rest ih =>
      obtain ⟨hcatalog, hoptions⟩ := s.setup_perform call
      obtain ⟨hcatalog', hoptions'⟩ := ih (s.perform call)
      exact ⟨hcatalog'.trans hcatalog, hoptions'.trans hoptions⟩

theorem program_of_renews (h : s.renews call = true) (hnone : (s.perform call).lastError = none) :
    (s.perform call).program = .ok (s.perform call).output := by
  obtain ⟨w, r, hs⟩ := perform_of_renews h
  rw [hs] at hnone ⊢
  have hlatest : s.output = (latestText [.ok s.output]).getD "" := rfl
  have hcurrent := current_regenerate (s := { s with workspace := w, registries := r }) hlatest
  exact hcurrent.output hnone

theorem KeepsUp.performAll (h : s.KeepsUp) (before : List SessionCall) :
    (s.performAll before).KeepsUp := by
  intro calls call
  have hlater := h (before ++ calls) call
  rw [Session.performAll, List.foldl_append] at hlater
  exact hlater

/-- A program that is generated again is no news to a runtime that did not see it before. -/
theorem not_keepsUp_of_program {w : Workspace} (hne : s.output ≠ "")
    (h : { s with workspace := w }.program = .ok s.output) : ¬s.withRuntime.KeepsUp := by
  intro hkeeps
  have hprogram : { s.withRuntime with workspace := w }.program = .ok s.output := h
  have hperform : (s.withRuntime.performAll []).perform (.event .change w) =
      { s.withRuntime with workspace := w }.regenerate := rfl
  have hlast := hkeeps [] (.event .change w) rfl
  rw [hperform, regenerate_of_ok hprogram] at hlast
  simpa [submitted, withRuntime] using hlast rfl hne

/-- A runtime was handed the present output last exactly when the output has changed since it was
attached. So it keeps up exactly when there was no output before it, or none that can come again. -/
theorem keepsUp_withRuntime (s : Session) :
    (∀ calls, let s' := s.withRuntime.performAll calls
      s'.submitted.getLast? = some s'.output ↔
        ∃ text ∈ s.withRuntime.outputs calls, text ≠ s.output) ∧
      (s.withRuntime.KeepsUp ↔
        s.output = "" ∨ ∀ w r, generate s.catalog s.options w r ≠ .ok s.output) := by
  refine ⟨s.getLast?_submitted, fun hkeeps => ?_, fun hfresh => ?_⟩
  · by_contra hstale
    push Not at hstale
    obtain ⟨hne, w, r, hgenerate⟩ := hstale
    let refused : RegistryAction Unit := fun _ => (.error (.notFound ""), r)
    have hlater : { s with registries := r }.withRuntime.KeepsUp :=
      hkeeps.performAll [.edit refused]
    exact not_keepsUp_of_program (s := { s with registries := r }) (w := w) hne hgenerate hlater
  · intro calls call hrenews s' hnone hne
    have hs' : s.withRuntime.performAll (calls ++ [call]) = s' := performAll_concat ..
    have hchanged := s.getLast?_submitted (calls ++ [call])
    obtain ⟨hcatalog, hoptions⟩ := s.withRuntime.setup_performAll (calls ++ [call])
    rw [hs'] at hchanged hcatalog hoptions
    refine hchanged.2 ⟨s'.output, output_mem_outputs .., fun hsame => ?_⟩
    rcases hfresh with hempty | hnever
    · exact hne (hsame.trans hempty)
    · have hprogram : s'.program = .ok s'.output := program_of_renews hrenews hnone
      rw [program, hcatalog, hoptions, hsame] at hprogram
      exact hnever _ _ hprogram

/-- A runtime that is attached to a session right after its project was opened misses the program of
the project, also when that program is generated again. -/
theorem not_keepsUp_of_parts {c : Catalog} {p : Project} {r : Registries} {w : Workspace}
    {text : String} (hparts : p.parts = .ok (r, w)) (hgenerate : generate c .default w r = .ok text)
    (hne : text ≠ "") :
    ∃ s, ofProject c p = .ok s ∧ s.output = text ∧ ¬s.withRuntime.KeepsUp := by
  have hprogram : { new c with registries := r, workspace := w }.program = .ok text := hgenerate
  rw [ofProject_of_parts hparts, regenerate_of_ok hprogram]
  refine ⟨_, rfl, rfl, not_keepsUp_of_program (w := w) hne ?_⟩
  exact hgenerate

/-- A saved project with the one block `tick`. -/
def tickingProject : Project :=
  ⟨default, Workspace.empty.insert "tick" (Block.new "observer_tick" |>.atTopLevel 0 0)⟩

theorem not_keepsUp_ticking :
    ∃ s, ofProject .standard tickingProject = .ok s ∧ s.output = "tick" ∧
      ¬s.withRuntime.KeepsUp :=
  not_keepsUp_of_parts rfl (by decide +kernel) (by decide)

end Session

end AgentBlocks
