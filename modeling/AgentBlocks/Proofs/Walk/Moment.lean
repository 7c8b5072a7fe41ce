import AgentBlocks.Proofs.Walk.Depth
import AgentBlocks.Proofs.Walk.Route
import Mathlib.Logic.Function.Iterate

/-!
Runs of the generator, moment by moment. The calls that have begun and not ended stand on a stack
of tasks, without a bound on their number, and a chain is followed for as long as its blocks name
another one. Whatever the catalog and the graph, the blocks that are being rendered at one moment
are different ones, and so are the statements that the chains of a whole run render.
-/
namespace AgentBlocks

/-- What a call has still to do: the remaining heads or the rest of a chain, with the texts so far,
an expression that has not begun, or what is left of the rule of a block. -/
inductive Task where
  | heads (rest : List String) (sections : List String)
  | chain (next : Option String) (lines : List String)
  | value (id : String)
  | render (role : Role) (id : String) (b : Block) (type : BlockType) (rule : Rule)

/-- The block that a task renders. -/
def Task.rendered? : Task → Option (Role × String)
  | .render role id _ _ _ => some (role, id)
  | _ => none

def Role.leave (t : Trail) : Role → Trail
  | .chain => t
  | .value => t.leave

/-- A moment of a run: the tasks, innermost first, the answer that the last call has left for the
first of them, the trail, and the statements that chains have begun to render, last first. -/
structure Moment where
  tasks : List Task
  answer : Option (Except GenerateError Phrase)
  trail : Trail
  begun : List String

namespace Moment

def start (options : GenerateOptions) (w : Workspace) (r : Registries) : Moment :=
  let declarations := if options.includeDeclarations then r.declarations else []
  ⟨[.heads w.topLevelIds declarations], none, .start, []⟩

/-- Puts a task before the others. -/
def call (m : Moment) (task : Task) : Moment := { m with tasks := task :: m.tasks, answer := none }

/-- Leaves an answer for the first task. -/
def reply (m : Moment) (outcome : Except GenerateError Phrase) : Moment :=
  { m with answer := some outcome }

/-- Takes in the text of a call that has ended and hands its error on. -/
def takeIn (m : Moment) (taken : String → Task) (otherwise : Moment) : Moment :=
  match m.answer with
  | some (.ok phrase) => m.call (taken phrase.code)
  | some (.error e) => m.reply (.error e)
  | none => otherwise

/-- Asks for the text of a slot: `slot` is the call for a slot that is filled. The task stays until
that call has ended. -/
def ask (m : Moment) (task : Task) (slot : Option Task) (text : Phrase → String) (default : String)
    (next : Except GenerateError String → Task) : Moment :=
  match m.answer, slot with
  | some outcome, _ => m.call (next (outcome.map text))
  | none, some filled => (m.call task).call filled
  | none, none => m.call (next (.ok default))

def inProgress (m : Moment) : List (Role × String) := m.tasks.filterMap Task.rendered?

end Moment

namespace Surroundings

variable (s : Surroundings)

def beginValue (m : Moment) (id : String) : Moment :=
  if m.trail.holds id then m.reply (.error (.cyclicGraph id))
  else match s.lookup id with
    | .error e => m.reply (.error e)
    | .ok (b, type) =>
      { m with trail := m.trail.enter id }.call
        (.render .value id b type (type.rule b s.registries))

def beginStatement (m : Moment) (id : String) (lines : List String) : Moment :=
  if m.trail.holds id then m.reply (.error (.cyclicGraph id))
  else match s.lookup id with
    | .error e => { m with trail := m.trail.place id }.reply (.error e)
    | .ok (b, type) =>
      ({ m with trail := m.trail.place id, begun := id :: m.begun }.call (.chain b.next lines)).call
        (.render .chain id b type (type.rule b s.registries))

/-- What a task does at a moment with the given other tasks. -/
def perform (m : Moment) : Task → Moment
  | .heads rest sections =>
    m.takeIn (fun code => .heads rest (sections ++ consText code [])) <| match rest with
      | [] => m.reply (.ok (.statement ("\n\n".intercalate sections)))
      | head :: rest => (m.call (.heads rest sections)).call (.chain (some head) [])
  | .chain next lines =>
    m.takeIn (fun code => .chain next (lines ++ consText code [])) <| match next with
      | none => m.reply (.ok (.statement ("\n".intercalate lines)))
      | some id => s.beginStatement m id lines
  | .value id => s.beginValue m id
  | .render role id b type rule =>
    match rule with
    | .done result => { m with trail := role.leave m.trail }.reply result
    | .value slot bound next =>
      m.ask (.render role id b type rule) ((b.inputs.get? slot).map .value)
        (fun phrase => bound.enclose phrase.code phrase.precedence) (type.defaultFor slot)
        (fun answer => .render role id b type (next answer))
    | .statements slot next =>
      m.ask (.render role id b type rule)
        ((b.statements.get? slot).map fun head => .chain (some head) [])
        (fun phrase => Text.indent s.indentWidth phrase.code) ""
        (fun answer => .render role id b type (next answer))

theorem perform_value (role : Role) (id : String) (b : Block) (type : BlockType) (slot : String)
    (bound : Bound) (next : Except GenerateError String → Rule) (m : Moment) :
    s.perform m (.render role id b type (.value slot bound next)) =
      m.ask (.render role id b type (.value slot bound next)) ((b.inputs.get? slot).map .value)
        (fun phrase => bound.enclose phrase.code phrase.precedence) (type.defaultFor slot)
        (fun answer => .render role id b type (next answer)) := rfl

theorem perform_statements (role : Role) (id : String) (b : Block) (type : BlockType)
    (slot : String) (next : Except GenerateError String → Rule) (m : Moment) :
    s.perform m (.render role id b type (.statements slot next)) =
      m.ask (.render role id b type (.statements slot next))
        ((b.statements.get? slot).map fun head => .chain (some head) [])
        (fun phrase => Text.indent s.indentWidth phrase.code) ""
        (fun answer => .render role id b type (next answer)) := rfl

/-- One step of a run. A run that has ended stays as it is. -/
def step (m : Moment) : Moment :=
  match m.tasks with
  | [] => m
  | task :: outer => s.perform { m with tasks := outer } task

end Surroundings

/-- The blocks in progress, the trail and the statements that chains have begun fit together. -/
structure Fits (w : Workspace) (inProgress : List (Role × String)) (t : Trail)
    (begun : List String) : Prop where
  nodup : (inProgress.map (·.2)).Nodup
  known : ∀ block ∈ inProgress, (w.block? block.2).isSome
  pending : t.pending = (inProgress.filter (·.1 = .value)).map (·.2)
  chains : ∀ id, (.chain, id) ∈ inProgress → id ∈ begun
  placed : begun ⊆ t.placed
  begun_nodup : begun.Nodup
  begun_known : ∀ id ∈ begun, (w.block? id).isSome

namespace Fits

variable {w : Workspace} {inProgress : List (Role × String)} {t : Trail} {begun : List String}
  {id : String}

theorem holds (h : Fits w inProgress t begun) {block : Role × String}
    (hblock : block ∈ inProgress) : t.holds block.2 = true := by
  rw [Trail.holds_iff]
  obtain ⟨role, id⟩ := block
  cases role with
  | chain => exact .inr (h.placed (h.chains id hblock))
  | value =>
      left
      rw [h.pending]
      exact List.mem_map_of_mem (List.mem_filter.2 ⟨hblock, rfl⟩)

theorem place (h : Fits w inProgress t begun) : Fits w inProgress (t.place id) begun :=
  { h with placed := fun _ hmem => List.mem_cons_of_mem id (h.placed hmem) }

theorem nodup_cons (h : Fits w inProgress t begun) (hfree : t.holds id = false) :
    (id :: inProgress.map (·.2)).Nodup := by
  refine List.nodup_cons.2 ⟨?_, h.nodup⟩
  intro hmem
  obtain ⟨block, hblock, rfl⟩ := List.mem_map.1 hmem
  rw [h.holds hblock] at hfree
  cases hfree

theorem enter (h : Fits w inProgress t begun) (hfree : t.holds id = false)
    (hknown : (w.block? id).isSome) : Fits w ((.value, id) :: inProgress) (t.enter id) begun where
  nodup := h.nodup_cons hfree
  known := List.forall_mem_cons.2 ⟨hknown, h.known⟩
  pending := by simp [Trail.enter, h.pending]
  chains x hmem := h.chains x (by simpa using hmem)
  placed := h.placed
  begun_nodup := h.begun_nodup
  begun_known := h.begun_known

theorem begin (h : Fits w inProgress t begun) (hfree : t.holds id = false)
    (hknown : (w.block? id).isSome) :
    Fits w ((.chain, id) :: inProgress) (t.place id) (id :: begun) where
  nodup := h.nodup_cons hfree
  known := List.forall_mem_cons.2 ⟨hknown, h.known⟩
  pending := by simp [Trail.place, h.pending]
  chains x hmem := by
    rcases List.mem_cons.1 hmem with heq | hmem
    · cases heq
      exact List.mem_cons_self
    · exact List.mem_cons_of_mem id (h.chains x hmem)
  placed := List.cons_subset_cons id h.placed
  begun_nodup := by
    refine List.nodup_cons.2 ⟨?_, h.begun_nodup⟩
    intro hmem
    rw [Trail.holds_iff.2 (.inr (h.placed hmem))] at hfree
    cases hfree
  begun_known := List.forall_mem_cons.2 ⟨hknown, h.begun_known⟩

theorem leave {role : Role} (h : Fits w ((role, id) :: inProgress) t begun) :
    Fits w inProgress (role.leave t) begun where
  nodup := (List.nodup_cons.1 h.nodup).2
  known := (List.forall_mem_cons.1 h.known).2
  pending := by
    cases role with
    | chain => simpa [Role.leave] using h.pending
    | value => simp [Role.leave, Trail.leave, h.pending]
  chains x hmem := h.chains x (List.mem_cons_of_mem _ hmem)
  placed := by cases role <;> exact h.placed
  begun_nodup := h.begun_nodup
  begun_known := h.begun_known

theorem length_le_size (h : Fits w inProgress t begun) : inProgress.length ≤ w.size := by
  have hknown : ∀ id ∈ inProgress.map (·.2), (w.block? id).isSome := by
    intro id hmem
    obtain ⟨block, hblock, rfl⟩ := List.mem_map.1 hmem
    exact h.known block hblock
  have hle := Workspace.length_le_size h.nodup hknown
  rwa [List.length_map] at hle

end Fits

namespace Surroundings

variable (s : Surroundings)

def Fitting (m : Moment) : Prop := Fits s.workspace m.inProgress m.trail m.begun

variable {s} {m : Moment} {task task' : Task}

theorem Fitting.call_of_eq (h : s.Fitting (m.call task)) (heq : task'.rendered? = task.rendered?) :
    s.Fitting (m.call task') := by
  have hsame : (m.call task').inProgress = (m.call task).inProgress := by
    simp only [Moment.inProgress, Moment.call, List.filterMap_cons, heq]
  unfold Fitting at h ⊢
  rwa [hsame]

theorem fitting_call (hnone : task.rendered? = none) : s.Fitting (m.call task) ↔ s.Fitting m := by
  have hsame : (m.call task).inProgress = m.inProgress := List.filterMap_cons_none hnone
  unfold Fitting
  rw [hsame]
  rfl

theorem Fitting.beginValue (h : s.Fitting m) (id : String) : s.Fitting (s.beginValue m id) := by
  unfold Surroundings.beginValue
  cases hfree : m.trail.holds id with
  | true => exact h
  | false =>
      cases hlookup : s.lookup id with
      | error e => exact h
      | ok found => exact h.enter hfree (isSome_of_lookup hlookup)

theorem Fitting.beginStatement (h : s.Fitting m) (id : String) (lines : List String) :
    s.Fitting (s.beginStatement m id lines) := by
  unfold Surroundings.beginStatement
  cases hfree : m.trail.holds id with
  | true => exact h
  | false =>
      cases hlookup : s.lookup id with
      | error e => exact h.place
      | ok found => exact h.begin hfree (isSome_of_lookup hlookup)

theorem Fitting.takeIn {taken : String → Task} {otherwise : Moment} (h : s.Fitting m)
    (htaken : ∀ code, (taken code).rendered? = none) (hotherwise : s.Fitting otherwise) :
    s.Fitting (m.takeIn taken otherwise) := by
  unfold Moment.takeIn
  split
  · exact (fitting_call (htaken _)).2 h
  · exact h
  · exact hotherwise

theorem Fitting.ask {slot : Option Task} {text : Phrase → String} {default : String}
    {next : Except GenerateError String → Task} (h : s.Fitting (m.call task))
    (hslot : ∀ filled ∈ slot, filled.rendered? = none)
    (hnext : ∀ answer, (next answer).rendered? = task.rendered?) :
    s.Fitting (m.ask task slot text default next) := by
  unfold Moment.ask
  split
  · exact h.call_of_eq (hnext _)
  · exact (fitting_call (hslot _ rfl)).2 h
  · exact h.call_of_eq (hnext _)

/-- Only the beginning and the end of a rendering change what is in progress. -/
theorem Fitting.perform (h : s.Fitting (m.call task)) : s.Fitting (s.perform m task) := by
  cases task with
  | heads rest sections =>
      have houter := (fitting_call rfl).1 h
      refine houter.takeIn (fun _ => rfl) ?_
      cases rest <;> exact houter
  | chain next lines =>
      have houter := (fitting_call rfl).1 h
      refine houter.takeIn (fun _ => rfl) ?_
      cases next with
      | none => exact houter
      | some id => exact houter.beginStatement id lines
  | value id => exact ((fitting_call rfl).1 h).beginValue id
  | render role id b type rule =>
      cases rule with
      | done result => exact Fits.leave h
      | value slot bound next =>
          refine h.ask (fun filled hfilled => ?_) fun _ => rfl
          obtain ⟨child, -, rfl⟩ := Option.map_eq_some_iff.1 hfilled
          rfl
      | statements slot next =>
          refine h.ask (fun filled hfilled => ?_) fun _ => rfl
          obtain ⟨head, -, rfl⟩ := Option.map_eq_some_iff.1 hfilled
          rfl

theorem Fitting.step (h : s.Fitting m) : s.Fitting (s.step m) := by
  obtain ⟨tasks, answer, trail, begun⟩ := m
  cases tasks with
  | nil => exact h
  | cons task outer => exact Fitting.perform (m := ⟨outer, answer, trail, begun⟩) h

theorem Fitting.iterate (h : s.Fitting m) (n : Nat) : s.Fitting (s.step^[n] m) := by
  induction n with
  | zero => exact h
  | succ n ih =>
      rw [Function.iterate_succ_apply']
      exact ih.step

end Surroundings

theorem fits_start (options : GenerateOptions) (w : Workspace) (r : Registries) :
    Fits w (Moment.start options w r).inProgress (Moment.start options w r).trail
      (Moment.start options w r).begun where
  nodup := .nil
  known := nofun
  pending := rfl
  chains := nofun
  placed := List.nil_subset _
  begun_nodup := .nil
  begun_known := nofun

def momentAfter (c : Catalog) (options : GenerateOptions) (w : Workspace) (r : Registries)
    (n : Nat) : Moment :=
  (Surroundings.step ⟨c, w, r, options.indentWidth⟩)^[n] (.start options w r)

theorem fits_momentAfter (c : Catalog) (options : GenerateOptions) (w : Workspace) (r : Registries)
    (n : Nat) :
    Fits w (momentAfter c options w r n).inProgress (momentAfter c options w r n).trail
      (momentAfter c options w r n).begun :=
  Surroundings.Fitting.iterate (s := ⟨c, w, r, options.indentWidth⟩) (fits_start options w r) n

end AgentBlocks
