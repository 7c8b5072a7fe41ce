import AgentBlocks.Project.Program
import AgentBlocks.Proofs.Session.Run
import AgentBlocks.Proofs.Walk.Widths

/-!
Options that are given to a session after it was opened from a project. The project is generated
when it is opened, with the default options, and other options count from the next change on. Until
then the session shows a program that those options would not give, unless they make no difference.
-/
namespace AgentBlocks

open Text

theorem Text.Row.text_eq_text_iff {rows : List Row} (hfeed : ∀ row ∈ rows, '\n' ∉ row.content)
    (width width' : Nat) :
    Row.text width rows = Row.text width' rows ↔ width = width' ∨ ∀ row ∈ rows, row.depth = 0 := by
  constructor
  · intro h
    rcases eq_or_ne rows [] with rfl | hne
    · exact .inr nofun
    · have hsplit : ∀ width, (Row.text width rows).toList.splitOn '\n' =
          rows.map (·.chars width) := by
        intro width
        rw [Row.toList_text]
        refine List.splitOn_intercalate '\n' (List.forall_mem_map.2 fun row hrow => ?_)
          (by simpa using hne)
        exact Row.feed_not_mem_chars (hfeed row hrow)
      have hrows : rows.map (·.chars width) = rows.map (·.chars width') := by
        rw [← hsplit, h, hsplit]
      rcases eq_or_ne width width' with hwidth | hwidth
      · exact .inl hwidth
      · refine .inr fun row hrow => ?_
        have hlength := congrArg List.length (List.map_inj_left.1 hrows row hrow)
        simp only [Row.chars, List.length_append, List.length_replicate,
          Nat.add_right_cancel_iff] at hlength
        by_contra hdepth
        exact hwidth (Nat.eq_of_mul_eq_mul_left (Nat.pos_of_ne_zero hdepth) hlength)
  · rintro (rfl | hdepth)
    · rfl
    · have hchars : ∀ row ∈ rows, row.chars width = row.chars width' := by
        intro row hrow
        rw [Row.chars, Row.chars, hdepth row hrow, Nat.zero_mul, Nat.zero_mul]
      rw [← String.toList_inj, Row.toList_text, Row.toList_text, List.map_congr_left hchars]

section Generate

variable {w : Workspace} {r : Registries} {options : GenerateOptions} {text : String}

/-- Whether there is a program does not depend on the options. -/
theorem exists_generate (h : generate .standard options w r = .ok text) (o : GenerateOptions) :
    ∃ text', generate .standard o w r = .ok text' := by
  -- first the declarations at the same width, then the width
  obtain ⟨declared, hdeclared⟩ : ∃ text',
      generate .standard ⟨options.indentWidth, o.includeDeclarations⟩ w r = .ok text' := by
    obtain ⟨outcome, t, hwalk, heq⟩ := generate_eq_map .standard options w r
    obtain ⟨outcome', t', hwalk', heq'⟩ :=
      generate_eq_map .standard ⟨options.indentWidth, o.includeDeclarations⟩ w r
    cases hwalk.symm.trans hwalk'
    cases outcome with
    | error e => cases h.symm.trans heq
    | ok chains => exact ⟨_, heq'⟩
  rcases generate_eq_rows o.includeDeclarations w r with ⟨e, herror⟩ | ⟨rows, -, hrows⟩
  · cases hdeclared.symm.trans (herror _)
  · exact ⟨_, hrows o.indentWidth⟩

theorem generate_of_no_declarations (hr : r.declarations = []) (c : Catalog) (width : Nat)
    (declarations : Bool) (w : Workspace) :
    generate c ⟨width, declarations⟩ w r = generate c ⟨width, true⟩ w r := by
  simp only [generate, generateWithin, hr, ite_self]

end Generate

namespace Session

variable {s : Session} {p : Project} {r : Registries} {w : Workspace} {shown : String}

/-- Opened with the options, the project is shown with the program that it has under them, also
after any events that concern only the view. -/
def ShownWith (o : GenerateOptions) (p : Project) : Prop :=
  ∃ s r w, ofProject .standard p = .ok s ∧ p.parts = .ok (r, w) ∧ ∀ views : List Workspace,
    generate .standard o w r = .ok ((s.withOptions o).run (views.map (.event .view))).output

theorem run_views (s : Session) (views : List Workspace) :
    s.run (views.map (.event .view)) = s := by
  induction views with
  | nil => rfl
  | cons view views ih => exact ih

theorem handleEvent_of_isMeaningful {event : EditorEvent} (h : event.isMeaningful = true)
    (s : Session) (w : Workspace) :
    (s.handleEvent event w).2 = { s with workspace := w }.regenerate := by
  rw [handleEvent, if_pos h]

theorem ofProject_of_generate {c : Catalog} (hparts : p.parts = .ok (r, w))
    (hshown : generate c .default w r = .ok shown) :
    ∃ s, ofProject c p = .ok s ∧ s.catalog = c ∧ s.registries = r ∧ s.workspace = w ∧
      s.output = shown ∧ s.lastError = none := by
  have hprogram : { new c with registries := r, workspace := w }.program = .ok shown := hshown
  rw [ofProject_of_parts hparts, regenerate_of_ok hprogram]
  exact ⟨_, rfl, rfl, rfl, rfl, rfl, rfl⟩

theorem program_withOptions (s : Session) (o : GenerateOptions) :
    (s.withOptions o).program = generate s.catalog o s.workspace s.registries := rfl

theorem shownWith_iff (hparts : p.parts = .ok (r, w))
    (hshown : generate .standard .default w r = .ok shown) (o : GenerateOptions) :
    ShownWith o p ↔ generate .standard o w r = .ok shown := by
  obtain ⟨s, hopened, -, -, -, houtput, -⟩ := ofProject_of_generate hparts hshown
  have hviewed : ∀ views : List Workspace,
      ((s.withOptions o).run (views.map (.event .view))).output = shown := by
    intro views
    rw [run_views]
    exact houtput
  constructor
  · rintro ⟨s', r', w', hs', hparts', hviews⟩
    cases hparts.symm.trans hparts'
    cases hopened.symm.trans hs'
    rw [← hviewed []]
    exact hviews []
  · intro h
    refine ⟨s, r, w, hopened, hparts, fun views => ?_⟩
    rw [hviewed]
    exact h

/-- A session that was opened from a project shows the program under the default options, whatever
options it is given then and whatever concerns only the view. So it shows the program under its own
options exactly when they give the same one: of options that leave out no declarations, when the
width of a level is the default one or no line is indented. The first change, even to the same
graph, brings the program under its own options. -/
theorem output_withOptions (hparts : p.parts = .ok (r, w))
    (hshown : generate .standard .default w r = .ok shown) (o : GenerateOptions) :
    ∃ s wanted, ofProject .standard p = .ok s ∧ generate .standard o w r = .ok wanted ∧
      (∀ json, Project.parse json = .ok p → generateFromText json o = .ok wanted) ∧
      (∀ views : List Workspace,
        let s' := (s.withOptions o).run (views.map (.event .view))
        s'.output = shown ∧ s'.lastError = none ∧ s'.program = .ok wanted ∧
          ∀ event : EditorEvent, event.isMeaningful = true →
            (s'.handleEvent event w).2.output = wanted) ∧
      (ShownWith o p ↔ shown = wanted) ∧
      ∃ rows : List Row,
        (∀ width, generate .standard ⟨width, true⟩ w r = .ok (Row.text width rows)) ∧
        (o.includeDeclarations = true ∨ r.declarations = [] →
          (shown = wanted ↔ o.indentWidth = 2 ∨ ∀ row ∈ rows, row.depth = 0)) := by
  obtain ⟨wanted, hwanted⟩ := exists_generate hshown o
  obtain ⟨s, hopened, hcatalog, hregistries, hworkspace, houtput, hnone⟩ :=
    ofProject_of_generate hparts hshown
  have hprogram : (s.withOptions o).program = .ok wanted := by
    rw [program_withOptions, hcatalog, hregistries, hworkspace, hwanted]
  refine ⟨s, wanted, hopened, hwanted, fun json hjson => ?_, fun views => ?_, ?_, ?_⟩
  · rw [generateFromText_of_parts hjson hparts, hwanted]
    rfl
  · rw [run_views]
    refine ⟨houtput, hnone, hprogram, fun event hevent => ?_⟩
    have hsame : { s.withOptions o with workspace := w } = s.withOptions o := by
      rw [← hworkspace]
      rfl
    rw [handleEvent_of_isMeaningful hevent, hsame, regenerate_of_ok hprogram]
  · rw [shownWith_iff hparts hshown, hwanted, Except.ok.injEq, eq_comm]
  · rcases generate_eq_rows true w r with ⟨e, herror⟩ | ⟨rows, hfeed, hrows⟩
    · cases hshown.symm.trans (herror 2)
    · refine ⟨rows, hrows, fun hdeclarations => ?_⟩
      have hrendered : generate .standard o w r = .ok (Row.text o.indentWidth rows) := by
        rw [← hrows]
        rcases hdeclarations with hincluded | hnone
        · rw [← hincluded]
        · exact generate_of_no_declarations hnone .standard o.indentWidth o.includeDeclarations w
      cases hshown.symm.trans (hrows 2)
      cases hwanted.symm.trans hrendered
      rw [Row.text_eq_text_iff hfeed, eq_comm (a := 2)]

def askingGraph : Workspace :=
  Workspace.empty
    |>.insert "ask" ((Block.new "agent_ask").withStatement "DO" "die" |>.atTopLevel 0 0)
    |>.insert "die" (Block.new "agent_die")

/-- A project with a global variable and with one line that is indented. -/
def askingProject : Project := ⟨⟨[], [⟨"energy", .global⟩]⟩, askingGraph⟩

theorem parts_askingProject :
    askingProject.parts = .ok (⟨Registries.builtinBreeds, [⟨"energy", .global⟩]⟩, askingGraph) := by
  decide +kernel

theorem generate_askingGraph :
    generate .standard .default askingGraph ⟨Registries.builtinBreeds, [⟨"energy", .global⟩]⟩ =
        .ok "globals [ energy ]\n\nask turtles [\n  die\n]" ∧
      generate .standard ⟨4, true⟩ askingGraph
          ⟨Registries.builtinBreeds, [⟨"energy", .global⟩]⟩ =
        .ok "globals [ energy ]\n\nask turtles [\n    die\n]" := by
  decide +kernel

theorem output_withOptions_asking :
    ∃ s, ofProject .standard askingProject = .ok s ∧
      let s' := (s.withOptions ⟨4, true⟩).run [.event .view .empty]
      s'.output = "globals [ energy ]\n\nask turtles [\n  die\n]" ∧
      (s'.handleEvent .change askingGraph).2.output =
        "globals [ energy ]\n\nask turtles [\n    die\n]" := by
  obtain ⟨s, wanted, hopened, hwanted, -, hviews, -⟩ :=
    output_withOptions parts_askingProject generate_askingGraph.1 ⟨4, true⟩
  cases hwanted.symm.trans generate_askingGraph.2
  obtain ⟨houtput, -, -, hchange⟩ := hviews [.empty]
  exact ⟨s, hopened, houtput, hchange .change rfl⟩

theorem not_shownWith_asking : ¬ShownWith ⟨4, true⟩ askingProject := by
  rw [shownWith_iff parts_askingProject generate_askingGraph.1, generate_askingGraph.2]
  decide

end Session

end AgentBlocks
