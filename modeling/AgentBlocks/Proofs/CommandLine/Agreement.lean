import AgentBlocks.CommandLine.Run
import AgentBlocks.Project.Program
import AgentBlocks.Proofs.Files.Tree

/-!
The command on the file of a project and the program of the text in that file. The command succeeds
when there is such a program and hands it on as a whole; otherwise it fails for the same reason and
leaves nothing behind but its progress.
-/
namespace AgentBlocks

open Files

theorem Project.eq_malformed_of_parse {text : String} {e : ProjectError}
    (h : Project.parse text = .error e) : e = .malformed := by
  unfold Project.parse at h
  split at h <;> cases h
  rfl

namespace CommandLine

/-- What was wrong with the project or its program, without the paths that are told with it. -/
def CommandError.source? : CommandError → Option SourceError
  | .storage (.malformed _) => some (.project .malformed)
  | .project e => some (.project e)
  | .program _ e => some (.program e)
  | .storage (.unreadable _) | .storage .noDirectory | .storage (.unwritable _) | .noInput
  | .inputNotFound _ => none

/-- The files and the printed text of the machine are those of an earlier one. -/
structure Untouched (m m' : Machine) : Prop where
  tree : m'.tree = m.tree
  printed : m'.printed = m.printed

section Stages

variable {α β : Type} {m : Machine} {t : Tree} {place : Place} {path text : String}
  {bytes : List UInt8}

theorem bind_apply (x : StateM Machine α) (next : α → StateM Machine β) (m : Machine) :
    (x >>= next) m = next (x m).1 (x m).2 := rfl

theorem report_apply (line : String) (m : Machine) :
    memoryHost.report line m = ((), { m with reported := m.reported ++ line ++ "\n" }) := rfl

theorem isFile_apply (h : m.tree.named? path = some (.file bytes)) :
    memoryHost.isFile path m = (true, m) := by
  simp only [memoryHost, h]

theorem canonicalPath_apply (h : m.tree.place? path = some place) :
    memoryHost.canonicalPath path m = (place.path, m) := by
  simp only [memoryHost, h, Option.map_some, Option.getD_some]

theorem makeParents_apply (h : m.tree.makeParents path = some t) :
    memoryHost.makeParents path m = (true, { m with tree := t }) := by
  simp only [memoryHost, h]

theorem writeText_apply (h : m.tree.write path (encodeText text) = some t) :
    memoryHost.writeText path text m = (true, { m with tree := t }) := by
  simp only [memoryHost, h]

theorem load_apply (h : m.tree.readText path = some text) : memoryHost.load path m =
    ((Project.parse text).mapError fun _ => .malformed path, m) := by
  have hread : memoryHost.readText path m = (some text, m) := by
    rw [← h]
    rfl
  rw [Host.load, bind_apply, hread]
  dsimp only
  cases Project.parse text <;> rfl

end Stages

variable {a : Arguments} {m : Machine} {input text : String}

theorem generateFile_eq (h : m.tree.readText input = some text) :
    match generateFromText text ⟨a.indentWidth, !a.noPrefix⟩ with
    | .error e => ∃ error m', generateFile memoryHost a input m = (.error error, m') ∧
        error.source? = some e ∧ Untouched m m'
    | .ok source => ∃ m', Untouched m m' ∧ generateFile memoryHost a input m =
        ((deliver memoryHost a.output source m').1.mapError .storage,
          (deliver memoryHost a.output source m').2) := by
  obtain ⟨place, bytes, hplace, hentry, hread⟩ := Tree.readText_path h
  have hnamed : m.tree.named? input = some (.file bytes) := by
    rw [Tree.named?, hplace]
    exact hentry
  unfold generateFile
  simp only [bind_apply, report_apply]
  rw [isFile_apply (by exact hnamed)]
  simp only [Bool.not_true, Bool.false_eq_true, if_false, bind_apply]
  rw [canonicalPath_apply (by exact hplace), load_apply (by exact hread)]
  cases hparse : Project.parse text with
  | error e =>
      cases Project.eq_malformed_of_parse hparse
      rw [generateFromText_of_unread hparse]
      exact ⟨_, _, rfl, rfl, rfl, rfl⟩
  | ok project =>
      cases hparts : project.parts with
      | error e =>
          rw [generateFromText_of_inconsistent hparse hparts]
          simp only [Except.mapError, hparts, bind_apply, report_apply]
          exact ⟨_, _, rfl, rfl, rfl, rfl⟩
      | ok parts =>
          obtain ⟨registries, workspace⟩ := parts
          rw [generateFromText_of_parts hparse hparts]
          simp only [Except.mapError, hparts, bind_apply, report_apply]
          cases hgenerate :
              generate .standard ⟨a.indentWidth, !a.noPrefix⟩ workspace registries with
          | error e => exact ⟨_, _, rfl, rfl, rfl, rfl⟩
          | ok source =>
              refine ⟨_, ?_, rfl⟩
              exact ⟨rfl, rfl⟩

theorem deliver_none (source : String) (m : Machine) : deliver memoryHost none source m =
    (.ok (), { m with printed := m.printed ++ endLine source }) := rfl

theorem deliver_some {output source : String} {t t' : Tree}
    (hparents : m.tree.makeParents output = some t)
    (hwrite : t.write output (encodeText (endLine source)) = some t') :
    ∃ reported,
      deliver memoryHost (some output) source m = (.ok (), ⟨t', m.printed, reported⟩) := by
  unfold deliver
  simp only [bind_apply, report_apply, Host.store]
  rw [makeParents_apply (by exact hparents)]
  simp only [if_true, bind_apply]
  rw [writeText_apply (by exact hwrite)]
  exact ⟨_, rfl⟩

theorem endLine_eq (source : String) : endLine source =
    if source = "" ∨ source.toList.getLast? = some '\n' then source else source ++ "\n" := by
  simp [endLine]

/-- The command on a readable file, on a machine that makes the directory of the output and writes
into it. It succeeds when the text of the file has a program, and then prints this program, or
leaves it in the output, with its last line ended. Otherwise it fails for the reason that the text
has none, prints nothing and leaves all files as they were. -/
theorem run_eq_generateFromText (hlist : a.listBlocks = false) (hinput : a.input = some input)
    (hread : m.tree.readText input = some text)
    (hwritable : ∀ output, a.output = some output → ∃ t, m.tree.makeParents output = some t ∧
      ∀ bytes, (t.write output bytes).isSome = true) :
    let program := generateFromText text ⟨a.indentWidth, !a.noPrefix⟩
    let outcome := (run memoryHost a m).1
    let m' := (run memoryHost a m).2
    (outcome = .ok () ↔ ∃ source, program = .ok source) ∧
      (∀ source, program = .ok source →
        let written := if source = "" ∨ source.toList.getLast? = some '\n' then source
          else source ++ "\n"
        match a.output with
        | none => m'.printed = m.printed ++ written ∧ m'.tree = m.tree
        | some output => m'.printed = m.printed ∧ m'.tree.readText output = some written) ∧
      ∀ e, program = .error e → ∃ error, outcome = .error error ∧ error.source? = some e ∧
        m'.tree = m.tree ∧ m'.printed = m.printed := by
  intro program
  have hrun : run memoryHost a m = generateFile memoryHost a input m := by
    simp only [run, hlist, Bool.false_eq_true, if_false, hinput]
  have hfile := generateFile_eq (a := a) hread
  rw [hrun]
  cases hprogram : generateFromText text ⟨a.indentWidth, !a.noPrefix⟩ with
  | error e =>
      rw [hprogram] at hfile
      obtain ⟨error, m', hfile, hsource, htree, hprinted⟩ := hfile
      simp only [program, hprogram, hfile]
      refine ⟨⟨nofun, nofun⟩, nofun, ?_⟩
      rintro _ ⟨⟩
      exact ⟨error, rfl, hsource, htree, hprinted⟩
  | ok source =>
      rw [hprogram] at hfile
      obtain ⟨m', ⟨htree, hprinted⟩, hfile⟩ := hfile
      simp only [program, hprogram, hfile]
      cases houtput : a.output with
      | none =>
          rw [deliver_none, endLine_eq, htree, hprinted]
          refine ⟨⟨fun _ => ⟨source, rfl⟩, fun _ => rfl⟩, ?_, nofun⟩
          rintro _ ⟨⟩
          exact ⟨rfl, rfl⟩
      | some output =>
          obtain ⟨t, hparents, hwrite⟩ := hwritable output houtput
          obtain ⟨t', ht'⟩ := Option.isSome_iff_exists.1 (hwrite (encodeText (endLine source)))
          obtain ⟨reported, hdeliver⟩ := deliver_some (htree ▸ hparents) ht'
          rw [hdeliver, hprinted]
          refine ⟨⟨fun _ => ⟨source, rfl⟩, fun _ => rfl⟩, ?_, nofun⟩
          rintro _ ⟨⟩
          rw [← endLine_eq]
          exact ⟨rfl, Tree.readText_write ht'⟩

/-- A project of one block, as text. -/
def tickText : String :=
  "\x7b\"workspace\": \x7b\"blocks\": \x7b\"t\": \x7b\"type\": \"observer_tick\", " ++
    "\"topLevel\": true\x7d\x7d\x7d\x7d"

/-- A machine with a project in the working directory. -/
def tickMachine : Machine :=
  .ofTree (Tree.empty.put ⟨.working 0, ["p.json"]⟩ (.file (encodeText tickText)))

theorem run_eq_generateFromText_tick :
    let a : Arguments := ⟨some "./p.json", some "out/p.nlogo", none, false, false, false⟩
    tickMachine.tree.readText "./p.json" = some tickText ∧
      generateFromText tickText ⟨2, true⟩ = .ok "tick" ∧
      (run memoryHost a tickMachine).1 = .ok () ∧
      (run memoryHost a tickMachine).2.printed = "" ∧
      (run memoryHost a tickMachine).2.tree.readText "out/p.nlogo" = some "tick\n" := by
  have hread : tickMachine.tree.readText "./p.json" = some tickText := by
    have hnamed : tickMachine.tree.named? "./p.json" = some (.file (encodeText tickText)) := rfl
    rw [Tree.readText, hnamed]
    exact decodeText?_encodeText tickText
  have hprogram : generateFromText tickText ⟨2, true⟩ = .ok "tick" := by
    have hoption : (generateFromText tickText ⟨2, true⟩).toOption = some "tick" := by
      decide +kernel
    generalize generateFromText tickText ⟨2, true⟩ = program at hoption
    cases program with
    | error e => cases hoption
    | ok source => exact congrArg Except.ok (Option.some.inj hoption)
  have hwritable : ∃ t, tickMachine.tree.makeParents "out/p.nlogo" = some t ∧
      ∀ bytes, (t.write "out/p.nlogo" bytes).isSome = true := ⟨_, rfl, fun _ => rfl⟩
  intro a
  have hrun := run_eq_generateFromText (a := a) (m := tickMachine) rfl rfl hread
    fun output houtput => Option.some.inj houtput ▸ hwritable
  obtain ⟨hprinted, htext⟩ := hrun.2.1 "tick" hprogram
  exact ⟨hread, hprogram, hrun.1.2 ⟨_, hprogram⟩, hprinted, htext⟩

end CommandLine

end AgentBlocks
