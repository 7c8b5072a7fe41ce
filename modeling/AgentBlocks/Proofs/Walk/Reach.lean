import AgentBlocks.Proofs.Walk.Termination
import AgentBlocks.Proofs.Walk.Totality
import AgentBlocks.Proofs.Workspace.Reach

/-!
A run never looks at a block that no reference leads to. Over graphs that agree on what they reach
the runs are the same moment by moment, so they come to the same program or to the same error.
-/
namespace AgentBlocks

theorem Block.mem_references {b : Block} {id : String} :
    id ∈ b.references ↔ ∃ link, b.target? link = some id := by
  have hslots : ∀ d : Dict String, id ∈ d.entries.map (·.2) ↔ ∃ slot, d.get? slot = some id := by
    intro d
    simp [Dict.get?_eq_some_iff]
  simp only [references, List.mem_append, hslots, Option.mem_toList]
  constructor
  · rintro ((⟨slot, h⟩ | ⟨slot, h⟩) | h)
    · exact ⟨.input slot, h⟩
    · exact ⟨.body slot, h⟩
    · exact ⟨.next, h⟩
  · rintro ⟨link, h⟩
    cases link with
    | next => exact .inr h
    | body slot => exact .inl (.inr ⟨slot, h⟩)
    | input slot => exact .inl (.inl ⟨slot, h⟩)

/-- Whatever a task has still to look up is reached. -/
def Task.Within (w : Workspace) : Task → Prop
  | .heads rest _ => ∀ id ∈ rest, w.Reachable id
  | .chain next _ => ∀ id ∈ next, w.Reachable id
  | .value id => w.Reachable id
  | .render _ _ b _ _ => ∀ id ∈ b.references, w.Reachable id

def Moment.Within (w : Workspace) (m : Moment) : Prop := ∀ task ∈ m.tasks, task.Within w

namespace Moment

variable {w : Workspace} {m : Moment} {task : Task}

theorem within_call : (m.call task).Within w ↔ task.Within w ∧ m.Within w := List.forall_mem_cons

theorem Within.takeIn {taken : String → Task} {otherwise : Moment} (h : m.Within w)
    (htaken : ∀ code, (taken code).Within w) (hotherwise : otherwise.Within w) :
    (m.takeIn taken otherwise).Within w := by
  unfold Moment.takeIn
  split
  · exact within_call.2 ⟨htaken _, h⟩
  · exact h
  · exact hotherwise

theorem Within.ask {slot : Option Task} {text : Phrase → String} {default : String}
    {next : Except GenerateError String → Task} (h : m.Within w) (htask : task.Within w)
    (hslot : ∀ filled ∈ slot, filled.Within w) (hnext : ∀ answer, (next answer).Within w) :
    (m.ask task slot text default next).Within w := by
  unfold Moment.ask
  split
  · exact within_call.2 ⟨hnext _, h⟩
  · exact within_call.2 ⟨hslot _ rfl, within_call.2 ⟨htask, h⟩⟩
  · exact within_call.2 ⟨hnext _, h⟩

end Moment

namespace Surroundings

variable {s : Surroundings} {m : Moment} {task : Task}

/-- What a known block names is reached when the block is. -/
theorem reachable_of_lookup {id : String} {b : Block} {type : BlockType}
    (hid : s.workspace.Reachable id) (hlookup : s.lookup id = .ok (b, type)) {child : String}
    (hchild : child ∈ b.references) : s.workspace.Reachable child :=
  .along hid (s.lookup_eq_ok.1 hlookup).1 hchild

theorem within_beginValue {id : String} (hm : m.Within s.workspace)
    (hid : s.workspace.Reachable id) : (s.beginValue m id).Within s.workspace := by
  unfold beginValue
  cases m.trail.holds id with
  | true => exact hm
  | false =>
      cases hlookup : s.lookup id with
      | error e => exact hm
      | ok found =>
          exact Moment.within_call.2 ⟨fun _ hchild => reachable_of_lookup hid hlookup hchild, hm⟩

theorem within_beginStatement {id : String} {lines : List String} (hm : m.Within s.workspace)
    (hid : s.workspace.Reachable id) : (s.beginStatement m id lines).Within s.workspace := by
  unfold beginStatement
  cases m.trail.holds id with
  | true => exact hm
  | false =>
      cases hlookup : s.lookup id with
      | error e => exact hm
      | ok found =>
          have hnames : ∀ child ∈ found.1.references, s.workspace.Reachable child :=
            fun _ hchild => reachable_of_lookup hid hlookup hchild
          have hnext : ∀ next ∈ found.1.next, s.workspace.Reachable next :=
            fun next h => hnames next (Block.mem_references.2 ⟨.next, h⟩)
          exact Moment.within_call.2 ⟨hnames, Moment.within_call.2 ⟨hnext, hm⟩⟩

/-- A task calls only for what its block names. -/
theorem within_perform (hm : m.Within s.workspace) (htask : task.Within s.workspace) :
    (s.perform m task).Within s.workspace := by
  cases task with
  | heads rest sections =>
      refine hm.takeIn (fun _ => htask) ?_
      cases rest with
      | nil => exact hm
      | cons head rest =>
          obtain ⟨hhead, hrest⟩ := List.forall_mem_cons.1 htask
          have hchain : ∀ id ∈ some head, s.workspace.Reachable id := by
            rintro _ ⟨⟩
            exact hhead
          exact Moment.within_call.2 ⟨hchain, Moment.within_call.2 ⟨hrest, hm⟩⟩
  | chain next lines =>
      refine hm.takeIn (fun _ => htask) ?_
      cases next with
      | none => exact hm
      | some id => exact within_beginStatement hm (htask id rfl)
  | value id => exact within_beginValue hm htask
  | render role id b type rule =>
      cases rule with
      | done result => exact hm
      | value slot bound next =>
          refine hm.ask htask (fun filled hfilled => ?_) fun _ => htask
          obtain ⟨child, hslot, rfl⟩ := Option.map_eq_some_iff.1 hfilled
          exact htask child (Block.mem_references.2 ⟨.input slot, hslot⟩)
      | statements slot next =>
          refine hm.ask htask (fun filled hfilled => ?_) fun _ => htask
          obtain ⟨head, hslot, rfl⟩ := Option.map_eq_some_iff.1 hfilled
          rintro _ ⟨⟩
          exact htask head (Block.mem_references.2 ⟨.body slot, hslot⟩)

theorem within_step (hm : m.Within s.workspace) : (s.step m).Within s.workspace := by
  obtain ⟨tasks, answer, trail, begun⟩ := m
  cases tasks with
  | nil => exact hm
  | cons task outer =>
      obtain ⟨htask, houter⟩ := List.forall_mem_cons.1 hm
      exact within_perform (m := ⟨outer, answer, trail, begun⟩) houter htask

theorem within_iterate (hm : m.Within s.workspace) (n : Nat) :
    (s.step^[n] m).Within s.workspace := by
  induction n with
  | zero => exact hm
  | succ n ih =>
      rw [Function.iterate_succ_apply']
      exact within_step ih

section Agreeing

variable {w' : Workspace} (h : s.workspace.AgreesWith w')
include h

theorem lookup_of_agreesWith {id : String} (hid : s.workspace.Reachable id) :
    { s with workspace := w' }.lookup id = s.lookup id := by
  unfold lookup
  rw [h.reached id hid]

theorem beginValue_of_agreesWith {id : String} (hid : s.workspace.Reachable id) :
    { s with workspace := w' }.beginValue m id = s.beginValue m id := by
  unfold beginValue
  rw [lookup_of_agreesWith h hid]

theorem beginStatement_of_agreesWith {id : String} (lines : List String)
    (hid : s.workspace.Reachable id) :
    { s with workspace := w' }.beginStatement m id lines = s.beginStatement m id lines := by
  unfold beginStatement
  rw [lookup_of_agreesWith h hid]

/-- A block is looked up only when its rendering begins. -/
theorem perform_of_agreesWith (htask : task.Within s.workspace) :
    { s with workspace := w' }.perform m task = s.perform m task := by
  cases task with
  | heads rest sections => rfl
  | chain next lines =>
      cases next with
      | none => rfl
      | some id =>
          exact congrArg (m.takeIn fun code => .chain (some id) (lines ++ consText code []))
            (beginStatement_of_agreesWith h lines (htask id rfl))
  | value id => exact beginValue_of_agreesWith h htask
  | render role id b type rule => cases rule <;> rfl

theorem step_of_agreesWith (hm : m.Within s.workspace) :
    { s with workspace := w' }.step m = s.step m := by
  obtain ⟨tasks, answer, trail, begun⟩ := m
  cases tasks with
  | nil => rfl
  | cons task outer =>
      exact perform_of_agreesWith (m := ⟨outer, answer, trail, begun⟩) h
        (List.forall_mem_cons.1 hm).1

theorem iterate_of_agreesWith (hm : m.Within s.workspace) (n : Nat) :
    { s with workspace := w' }.step^[n] m = s.step^[n] m := by
  induction n with
  | zero => rfl
  | succ n ih =>
      rw [Function.iterate_succ_apply', Function.iterate_succ_apply', ih,
        step_of_agreesWith h (within_iterate hm n)]

end Agreeing

end Surroundings

theorem momentAfter_of_agreesWith {w w' : Workspace} (h : w.AgreesWith w') (c : Catalog)
    (options : GenerateOptions) (r : Registries) (n : Nat) :
    momentAfter c options w' r n = momentAfter c options w r n := by
  have hstart : Moment.start options w' r = Moment.start options w r := by
    unfold Moment.start
    rw [h.topLevelIds]
  have hwithin : (Moment.start options w r).Within w :=
    List.forall_mem_singleton.2 fun _ => Workspace.reachable_of_mem_topLevelIds
  rw [momentAfter, hstart]
  exact Surroundings.iterate_of_agreesWith (s := ⟨c, w, r, options.indentWidth⟩) h hwithin n

/-- Blocks that no reference leads to are irrelevant: graphs with the same top-level blocks that
agree on every block that they reach have the same program, or fail with the same error. -/
theorem generate_eq_of_agreesWith {w w' : Workspace} (h : w.AgreesWith w') (c : Catalog)
    (options : GenerateOptions) (r : Registries) :
    generate c options w' r = generate c options w r := by
  obtain ⟨n, hended, hanswer⟩ := ended_of_generate c options w r
  obtain ⟨n', hended', hanswer'⟩ := ended_of_generate c options w' r
  rw [momentAfter_of_agreesWith h] at hended' hanswer'
  have hsame : momentAfter c options w r n' = momentAfter c options w r n :=
    Surroundings.iterate_eq_of_ended hended' hended
  rw [hsame, hanswer, Option.some_inj] at hanswer'
  exact (map_statement_injective hanswer').symm

/-- A half-built block of no known type, which refers to itself, to a missing block and to a
statement of the program. -/
def littered : Workspace :=
  showTwice.insert "scrap" ((Block.new "legacy_block").withInput "A" "scrap"
    |>.withStatement "DO" "gone" |>.withNext "show")

theorem generate_littered :
    showTwice.AgreesWith littered ∧
      generate .standard .default littered .empty = .ok "show ticks + ticks" := by
  have hscrap : ¬showTwice.Reachable "scrap" :=
    Workspace.not_reachable (by decide +kernel) (by decide +kernel)
  have h : showTwice.AgreesWith littered := Workspace.agreesWith_insert hscrap rfl
  refine ⟨h, ?_⟩
  rw [generate_eq_of_agreesWith h]
  decide +kernel

end AgentBlocks
