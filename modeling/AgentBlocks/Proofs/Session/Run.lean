import AgentBlocks.Session

/-!
Runs of an editing session. After every step the last error and the output tell what becomes of the
present registries and graph, and a step that is refused or that concerns only the view changes
nothing.
-/
namespace AgentBlocks

/-- What a session is told: a change in the editor with the graph after it, or an edit of the
registries. -/
inductive SessionStep where
  | event (event : EditorEvent) (w : Workspace)
  | edit (edit : RegistryEdit)

/-- The last of some generated programs that is no error. -/
def latestText (generated : List (Except GenerateError String)) : Option String :=
  (generated.filterMap Except.toOption).getLast?

namespace Session

def opened (c : Catalog) (options : Option GenerateOptions) (attached : Bool) : Session :=
  let s := match options with
    | none => new c
    | some options => (new c).withOptions options
  if attached then s.withRuntime else s

def step (s : Session) : SessionStep → Session
  | .event event w => (s.handleEvent event w).2
  | .edit edit => (s.editRegistries (performEdits [edit])).2

def run (s : Session) (steps : List SessionStep) : Session := steps.foldl step s

/-- Whether a step makes the session generate its program anew. -/
def regenerates (s : Session) : SessionStep → Bool
  | .event event _ => event.isMeaningful
  | .edit edit => (edit.change s.registries).isOk

/-- What the generations of a run gave, first to last. -/
def generations (s : Session) : List SessionStep → List (Except GenerateError String)
  | [] => []
  | step :: rest =>
    let s' := s.step step
    (if s.regenerates step then [s'.program] else []) ++ s'.generations rest

/-- The output and the last error of a session are those of its present state, after a history of
generations. -/
structure Current (s : Session) (generated : List (Except GenerateError String)) : Prop where
  lastError : ∀ e, s.lastError = some e ↔ s.program = .error e
  output : s.lastError = none → s.program = .ok s.output
  latest : s.output = (latestText generated).getD ""

variable {s : Session} {generated : List (Except GenerateError String)}

@[simp] theorem latestText_concat_ok (text : String) :
    latestText (generated ++ [.ok text]) = some text := by
  simp [latestText, Except.toOption]

@[simp] theorem latestText_concat_error (e : GenerateError) :
    latestText (generated ++ [.error e]) = latestText generated := by
  simp [latestText, Except.toOption]

theorem regenerate_of_error {e : GenerateError} (h : s.program = .error e) :
    s.regenerate = { s with lastError := some e } := by
  rw [regenerate, h]

/-- The output becomes the program, and the runtime is handed it when it is a new one. -/
theorem regenerate_of_ok {text : String} (h : s.program = .ok text) :
    s.regenerate = { s with
      lastError := none
      output := text
      runtime := if text = s.output then s.runtime else s.runtime.map (· ++ [text]) } := by
  rw [regenerate, h]
  by_cases hsame : text = s.output
  · subst hsame
    simp only [if_true]
  · simp only [if_neg hsame]

/-- Only the output, the last error and the log of the runtime change. -/
theorem regenerate_eq (s : Session) :
    ∃ output lastError runtime, s.regenerate = { s with output, lastError, runtime } := by
  cases h : s.program with
  | error e => exact ⟨s.output, some e, s.runtime, regenerate_of_error h⟩
  | ok text => exact ⟨text, none, _, regenerate_of_ok h⟩

theorem program_regenerate (s : Session) : s.regenerate.program = s.program := by
  obtain ⟨output, lastError, runtime, h⟩ := s.regenerate_eq
  rw [h]
  rfl

theorem current_regenerate (hs : s.output = (latestText generated).getD "") :
    s.regenerate.Current (generated ++ [s.regenerate.program]) := by
  have hprogram := s.program_regenerate
  cases h : s.program with
  | error e =>
      rw [h] at hprogram
      refine ⟨fun e' => ?_, fun hnone => ?_, ?_⟩
      · rw [hprogram, regenerate_of_error h, Option.some.injEq, Except.error.injEq]
      · rw [regenerate_of_error h] at hnone
        cases hnone
      · rw [hprogram, latestText_concat_error, regenerate_of_error h]
        exact hs
  | ok text =>
      rw [h] at hprogram
      refine ⟨fun e' => ?_, fun _ => ?_, ?_⟩
      · rw [hprogram, regenerate_of_ok h]
        constructor <;> intro h <;> cases h
      · rw [hprogram, regenerate_of_ok h]
      · rw [hprogram, latestText_concat_ok, regenerate_of_ok h]
        rfl

theorem ofProject_of_parts {c : Catalog} {p : Project} {r : Registries} {w : Workspace}
    (h : p.parts = .ok (r, w)) :
    ofProject c p = .ok { new c with registries := r, workspace := w }.regenerate := by
  rw [ofProject, h]
  rfl

theorem editRegistries_edit (s : Session) (edit : RegistryEdit) :
    s.editRegistries (performEdits [edit]) = match edit.change s.registries with
      | .error e => (.error e, s)
      | .ok (r, _) => (.ok (), { s with registries := r }.regenerate) := by
  simp only [editRegistries, performEdits]
  cases edit.change s.registries with
  | error e => rfl
  | ok changed => rfl

theorem editRegistries_of_error {edit : RegistryEdit} {e : RegistryError}
    (h : (s.editRegistries (performEdits [edit])).1 = .error e) :
    (s.editRegistries (performEdits [edit])).2 = s := by
  rw [editRegistries_edit] at h ⊢
  cases hchange : edit.change s.registries with
  | error e => rfl
  | ok changed =>
      rw [hchange] at h
      cases h

theorem step_of_not_regenerates {step : SessionStep} (h : s.regenerates step = false) :
    s.step step = s := by
  cases step with
  | event event w =>
      rw [step, handleEvent, if_neg (by simpa [regenerates] using h)]
  | edit edit =>
      rw [step, editRegistries_edit]
      cases hchange : edit.change s.registries with
      | error e => rfl
      | ok changed =>
          rw [regenerates, hchange] at h
          cases h

theorem step_of_regenerates {step : SessionStep} (h : s.regenerates step = true) :
    ∃ w r, s.step step = { s with workspace := w, registries := r }.regenerate := by
  cases step with
  | event event w =>
      refine ⟨w, s.registries, ?_⟩
      have hmeaningful : event.isMeaningful = true := h
      rw [step, handleEvent, if_pos hmeaningful]
  | edit edit =>
      rw [step, editRegistries_edit]
      cases hchange : edit.change s.registries with
      | error e =>
          rw [regenerates, hchange] at h
          cases h
      | ok changed => exact ⟨s.workspace, changed.1, rfl⟩

/-- Every step keeps a session current, with one more generation or none. -/
theorem Current.step (hs : s.Current generated) (step : SessionStep) :
    (s.step step).Current
      (generated ++ if s.regenerates step then [(s.step step).program] else []) := by
  cases h : s.regenerates step with
  | false =>
      rw [step_of_not_regenerates h]
      simpa using hs
  | true =>
      obtain ⟨w, r, hstep⟩ := step_of_regenerates h
      rw [if_pos rfl, hstep]
      exact current_regenerate hs.latest

theorem Current.run (hs : s.Current generated) (steps : List SessionStep) :
    (s.run steps).Current (generated ++ s.generations steps) := by
  induction steps generalizing s generated with
  | nil =>
      rw [generations, List.append_nil]
      exact hs
  | cons step rest ih =>
      have hrest := ih (hs.step step)
      rw [List.append_assoc] at hrest
      exact hrest

theorem generate_empty (c : Catalog) (options : GenerateOptions) :
    generate c options .empty .empty = .ok "" := by
  have hdeclarations : Registries.empty.declarations = [] := rfl
  have hheads : Workspace.empty.topLevelIds = [] := rfl
  simp only [generate, generateWithin, hheads, Surroundings.walkHeads, hdeclarations, ite_self]
  rfl

theorem current_opened (c : Catalog) (options : Option GenerateOptions) (attached : Bool) :
    (opened c options attached).Current [] := by
  have hprogram : (opened c options attached).program = .ok "" := by
    cases options <;> cases attached <;> exact generate_empty c _
  have herror : (opened c options attached).lastError = none := by
    cases options <;> cases attached <;> rfl
  have houtput : (opened c options attached).output = "" := by
    cases options <;> cases attached <;> rfl
  refine ⟨fun e => ?_, fun _ => ?_, ?_⟩
  · rw [hprogram, herror]
    constructor <;> intro h <;> cases h
  · rw [hprogram, houtput]
  · rw [houtput]
    rfl

/-- After any steps of a session that was set up before them: the last error is that of generating
the present program, without one the output is the present program, and the output is always the
text that was generated last. Neither what concerns only the view nor a refused edit changes
anything. -/
theorem run_opened_current (c : Catalog) (options : Option GenerateOptions) (attached : Bool)
    (steps : List SessionStep) :
    let s := opened c options attached
    let s' := s.run steps
    (∀ e, s'.lastError = some e ↔ s'.program = .error e) ∧
      (s'.lastError = none → s'.program = .ok s'.output) ∧
      s'.output = (latestText (s.generations steps)).getD "" ∧
      (∀ w, s'.handleEvent .view w = (.ok (), s')) ∧
      ∀ edit e, (s'.editRegistries (performEdits [edit])).1 = .error e →
        (s'.editRegistries (performEdits [edit])).2 = s' := by
  intro s s'
  have hs : s'.Current ([] ++ s.generations steps) := (current_opened c options attached).run steps
  exact ⟨hs.lastError, hs.output, hs.latest, fun _ => rfl, fun _ _ h => editRegistries_of_error h⟩

end Session

end AgentBlocks
