import AgentBlocks.Proofs.Walk.Termination
import Mathlib.Data.Nat.Find

/-!
The calls of a run: chains and expressions that a rule, or the generator itself, asks for. Each call
comes to an answer while the same tasks wait for it, and whether the answer is a text or an error,
the expressions that are being rendered are then those from before the call, and what has been
placed in the meantime are blocks that chains inside the call have come to. A rule that makes an
error its answer therefore goes on with the checks as they were.
-/
namespace AgentBlocks

/-- A chain or an expression that has not begun. -/
inductive Task.Call : Task → Prop
  | chain (head : String) : Call (.chain (some head) [])
  | value (id : String) : Call (.value id)

theorem Task.Call.rendered?_eq_none {task : Task} (h : task.Call) : task.rendered? = none := by
  cases h <;> rfl

namespace Moment

variable {m otherwise : Moment} {outer : List Task} {taken : String → Task}

/-- The block that a chain is about to walk. -/
def current? (m : Moment) : Option String :=
  match m.tasks, m.answer with
  | .chain next _ :: _, none => next
  | _, _ => none

theorem current?_eq_some {id : String} (h : m.current? = some id) :
    ∃ lines outer, m.tasks = .chain (some id) lines :: outer ∧ m.answer = none := by
  unfold current? at h
  split at h
  · rename_i next lines outer htasks hanswer
    subst h
    exact ⟨lines, outer, htasks, hanswer⟩
  · cases h

theorem trail_before : (m.before outer).trail = m.trail := rfl

theorem takeIn_before : (m.before outer).takeIn taken (otherwise.before outer) =
    (m.takeIn taken otherwise).before outer := by
  obtain ⟨tasks, answer, trail, begun⟩ := m
  obtain _ | _ | _ := answer <;> rfl

theorem ask_before (task : Task) (slot : Option Task) (text : Phrase → String) (default : String)
    (next : Except GenerateError String → Task) :
    (m.before outer).ask task slot text default next =
      (m.ask task slot text default next).before outer := by
  obtain ⟨tasks, answer, trail, begun⟩ := m
  cases answer <;> cases slot <;> rfl

theorem trail_ask (task : Task) (slot : Option Task) (text : Phrase → String) (default : String)
    (next : Except GenerateError String → Task) :
    (m.ask task slot text default next).trail = m.trail := by
  unfold ask
  split <;> rfl

end Moment

namespace Surroundings

open Walk

variable (s : Surroundings)

/-- The walk of a call, with at most `depth` blocks rendered one inside the other, comes to an
answer and a trail. -/
inductive ComesTo (depth : Nat) : Task → Trail → Except GenerateError Phrase → Trail → Prop
  | chain {head t result t'} : s.walkChain (s.render depth) head t = some (result, t') →
      ComesTo depth (.chain (some head) []) t (result.map .statement) t'
  | value {id t outcome t'} : s.walkValue (s.render depth) id t =
      some (outcome.map fun phrase => (phrase.code, phrase.precedence), t') →
      ComesTo depth (.value id) t outcome t'

variable {s} {m : Moment} {task : Task} {t t' : Trail} {outcome : Except GenerateError Phrase}

/-- From any trail a call comes to the answer of its walk, for which as many blocks one inside the
other as there are suffice. -/
theorem exists_replies (hcall : task.Call) (t : Trail) :
    ∃ outcome t', s.ComesTo s.workspace.size task t outcome t' ∧ s.Replies task t outcome t' := by
  have hrender : ∀ b type, Ends (s.Active (0 + 1)) (s.render s.workspace.size b type) :=
    s.ends_render _ (by omega)
  cases hcall with
  | chain head =>
      have hends := ends_walkChain hrender (s.keeps_render _) head t (active_zero t)
      obtain ⟨⟨result, t'⟩, hwalk⟩ := Option.ne_none_iff_exists'.1 hends
      have hreplies := replies_walkChain (runs_render _) (s.keeps_render _) hwalk
      exact ⟨_, t', .chain hwalk, hreplies⟩
  | value id =>
      have hends := ends_walkValue hrender id t (active_zero t)
      obtain ⟨⟨result, t'⟩, hwalk⟩ := Option.ne_none_iff_exists'.1 hends
      obtain ⟨outcome, rfl, hreplies⟩ := replies_walkValue (runs_render _) hwalk
      exact ⟨outcome, t', .value hwalk, hreplies⟩

theorem beginValue_before (outer : List Task) (id : String) :
    s.beginValue (m.before outer) id = (s.beginValue m id).before outer := by
  unfold beginValue
  rw [Moment.trail_before]
  cases m.trail.holds id with
  | true => rfl
  | false => cases s.lookup id <;> rfl

theorem beginStatement_before (outer : List Task) (id : String) (lines : List String) :
    s.beginStatement (m.before outer) id lines = (s.beginStatement m id lines).before outer := by
  unfold beginStatement
  rw [Moment.trail_before]
  cases m.trail.holds id with
  | true => rfl
  | false => cases s.lookup id <;> rfl

theorem perform_before (outer : List Task) (task : Task) :
    s.perform (m.before outer) task = (s.perform m task).before outer := by
  cases task with
  | heads rest sections =>
      simp only [perform, ← Moment.takeIn_before]
      cases rest <;> rfl
  | chain next lines =>
      simp only [perform, ← Moment.takeIn_before]
      cases next with
      | none => rfl
      | some id => exact congrArg _ (beginStatement_before outer id lines)
  | value id => exact beginValue_before outer id
  | render role id b type rule =>
      cases rule with
      | done result => rfl
      | value slot bound next => rw [perform_value, perform_value, Moment.ask_before]
      | statements slot next => rw [perform_statements, perform_statements, Moment.ask_before]

/-- A step is about the first task only: the others wait. -/
theorem step_before (hrunning : m.tasks ≠ []) (outer : List Task) :
    s.step (m.before outer) = (s.step m).before outer := by
  obtain ⟨tasks, answer, trail, begun⟩ := m
  cases tasks with
  | nil => exact absurd rfl hrunning
  | cons task inner => exact perform_before (m := ⟨inner, answer, trail, begun⟩) outer task

theorem iterate_before {k : Nat} (hrunning : ∀ j < k, (s.step^[j] m).tasks ≠ [])
    (outer : List Task) : s.step^[k] (m.before outer) = (s.step^[k] m).before outer := by
  induction k with
  | zero => rfl
  | succ k ih =>
      rw [Function.iterate_succ_apply', Function.iterate_succ_apply',
        ih fun j hj => hrunning j (Nat.lt_succ_of_lt hj),
        step_before (hrunning k (Nat.lt_succ_self k))]

/-- The first moment at which a task has come to its answer. -/
theorem Replies.exists_first (h : s.Replies task t outcome t') (begun : List String) :
    ∃ k begun', s.step^[k] ⟨[task], none, t, begun⟩ = ⟨[], some outcome, t', begun'⟩ ∧
      ∀ j < k, (s.step^[j] ⟨[task], none, t, begun⟩).tasks ≠ [] := by
  obtain ⟨begun', hleads⟩ := h begun
  obtain ⟨n, hn⟩ := hleads []
  have hended : ∃ k, (s.step^[k] ⟨[task], none, t, begun⟩).tasks = [] :=
    ⟨n, congrArg Moment.tasks hn⟩
  classical
  refine ⟨Nat.find hended, begun', ?_, fun j hj => Nat.find_min hended hj⟩
  exact (iterate_eq_of_ended (Nat.find_spec hended) (congrArg Moment.tasks hn)).trans hn

/-- A chain places the block that it has come to, unless that block is held. -/
theorem placed_step_of_current {id : String} (h : m.current? = some id) :
    (s.step m).trail.placed =
      if m.trail.holds id then m.trail.placed else id :: m.trail.placed := by
  obtain ⟨lines, outer, htasks, hanswer⟩ := Moment.current?_eq_some h
  obtain ⟨tasks, answer, trail, begun⟩ := m
  subst htasks hanswer
  change (s.beginStatement ⟨outer, none, trail, begun⟩ id lines).trail.placed = _
  unfold beginStatement
  cases trail.holds id with
  | true => rfl
  | false => cases s.lookup id <;> rfl

theorem placed_beginValue (id : String) :
    (s.beginValue m id).trail.placed = m.trail.placed := by
  unfold beginValue
  cases m.trail.holds id with
  | true => rfl
  | false => cases s.lookup id <;> rfl

/-- No other step places a block. -/
theorem placed_step_of_other (h : m.current? = none) :
    (s.step m).trail.placed = m.trail.placed := by
  obtain ⟨tasks, answer, trail, begun⟩ := m
  obtain _ | ⟨task, outer⟩ := tasks
  · rfl
  · cases task with
    | heads rest sections => obtain _ | _ | _ := answer <;> cases rest <;> rfl
    | chain next lines =>
        obtain _ | _ | _ := answer
        · obtain rfl : next = none := h
          rfl
        · rfl
        · rfl
    | value id => exact placed_beginValue id
    | render role id b type rule =>
        cases rule with
        | done result => cases role <;> rfl
        | value slot bound next =>
            exact congrArg Trail.placed (Moment.trail_ask _ _ _ _ _)
        | statements slot next =>
            exact congrArg Trail.placed (Moment.trail_ask _ _ _ _ _)

theorem mem_placed_step {id : String} : id ∈ (s.step m).trail.placed ↔
    id ∈ m.trail.placed ∨ m.current? = some id ∧ m.trail.holds id = false := by
  cases hcurrent : m.current? with
  | none => simp [placed_step_of_other hcurrent]
  | some x =>
      rw [placed_step_of_current hcurrent]
      by_cases heq : id = x
      · subst heq
        cases m.trail.holds id <;> simp
      · have hother : some x ≠ some id := fun h => heq (Option.some.inj h).symm
        cases m.trail.holds x <;> simp [heq, hother]

/-- What a run places are the blocks that its chains come to while they are free. -/
theorem mem_placed_iterate {id : String} (k : Nat) : id ∈ (s.step^[k] m).trail.placed ↔
    id ∈ m.trail.placed ∨ ∃ j < k, (s.step^[j] m).current? = some id ∧
      (s.step^[j] m).trail.holds id = false := by
  induction k with
  | zero => simp
  | succ k ih =>
      rw [Function.iterate_succ_apply', mem_placed_step, ih, or_assoc]
      refine or_congr_right ?_
      simp only [Nat.lt_succ_iff_lt_or_eq, or_and_right, exists_or, exists_eq_left]

end Surroundings

/-- From one moment of a run to another a task is performed: the same tasks wait for it all the
while, and in the end it has left an answer for them. -/
structure Performs (run : Nat → Moment) (outer : List Task) (n n' : Nat) : Prop where
  lt : n < n'
  inside : ∀ k, n ≤ k → k < n' → ∃ inner, inner ≠ [] ∧ (run k).tasks = inner ++ outer
  left : (run n').tasks = outer
  answered : (run n').answer.isSome

/-- Between two moments of a run the trail is kept: the same expressions are being rendered, and
what is placed besides are blocks that chains have come to meanwhile. So a block is held afterwards
if it was held before, or if a chain has come to it while it was free, and not otherwise. -/
structure KeepsTrail (run : Nat → Moment) (n n' : Nat) : Prop where
  pending : (run n').trail.pending = (run n).trail.pending
  placed : (run n).trail.placed ⊆ (run n').trail.placed
  added : ∀ id ∈ (run n').trail.placed, id ∉ (run n).trail.placed →
    ∃ k, n ≤ k ∧ k < n' ∧ (run k).current? = some id
  holds_iff : ∀ id, (run n').trail.holds id = true ↔ (run n).trail.holds id = true ∨
    ∃ k, n ≤ k ∧ k < n' ∧ (run k).current? = some id ∧ (run k).trail.holds id = false

/-- The run comes to the outcome of the generator. At no moment an expression is being rendered
inside itself, and each call that is made comes to an answer, a text or an error, which is that of
its walk, and keeps the trail. -/
structure StackDiscipline (c : Catalog) (options : GenerateOptions) (w : Workspace)
    (r : Registries) : Prop where
  ends : ∃ n, (momentAfter c options w r n).tasks = [] ∧
    (momentAfter c options w r n).answer = some ((generate c options w r).map .statement)
  simple : ∀ n, (momentAfter c options w r n).trail.pending.Nodup
  calls : ∀ n task outer, task.Call → (momentAfter c options w r n).tasks = task :: outer →
    (momentAfter c options w r n).answer = none →
    ∃ n' outcome, Performs (momentAfter c options w r) outer n n' ∧
      KeepsTrail (momentAfter c options w r) n n' ∧
      (momentAfter c options w r n').answer = some outcome ∧
      Surroundings.ComesTo ⟨c, w, r, options.indentWidth⟩ w.size task
        (momentAfter c options w r n).trail outcome (momentAfter c options w r n').trail

section Moments

variable {c : Catalog} {options : GenerateOptions} {w : Workspace} {r : Registries}

theorem momentAfter_add (n k : Nat) : momentAfter c options w r (n + k) =
    (Surroundings.step ⟨c, w, r, options.indentWidth⟩)^[k] (momentAfter c options w r n) := by
  rw [Nat.add_comm, momentAfter, Function.iterate_add_apply]
  rfl

theorem mem_placed_momentAfter {id : String} {n n' : Nat} (h : n ≤ n') :
    id ∈ (momentAfter c options w r n').trail.placed ↔
      id ∈ (momentAfter c options w r n).trail.placed ∨
        ∃ k, n ≤ k ∧ k < n' ∧ (momentAfter c options w r k).current? = some id ∧
          (momentAfter c options w r k).trail.holds id = false := by
  obtain ⟨d, rfl⟩ := Nat.exists_eq_add_of_le h
  rw [momentAfter_add, Surroundings.mem_placed_iterate]
  refine or_congr_right ⟨?_, ?_⟩
  · rintro ⟨j, hj, hcurrent⟩
    rw [← momentAfter_add] at hcurrent
    exact ⟨n + j, Nat.le_add_right n j, Nat.add_lt_add_left hj n, hcurrent⟩
  · rintro ⟨k, hle, hlt, hcurrent⟩
    obtain ⟨j, rfl⟩ := Nat.exists_eq_add_of_le hle
    rw [momentAfter_add] at hcurrent
    exact ⟨j, Nat.lt_of_add_lt_add_left hlt, hcurrent⟩

/-- The expressions that are being rendered are those of the tasks, so they are the same when the
same tasks render. -/
theorem keepsTrail_of_inProgress {n n' : Nat} (hle : n ≤ n')
    (hsame :
      (momentAfter c options w r n').inProgress = (momentAfter c options w r n).inProgress) :
    KeepsTrail (momentAfter c options w r) n n' := by
  have hpending : (momentAfter c options w r n').trail.pending =
      (momentAfter c options w r n).trail.pending := by
    rw [(fits_momentAfter c options w r n').pending, hsame,
      ← (fits_momentAfter c options w r n).pending]
  refine ⟨hpending, ?_, ?_, ?_⟩
  · intro id hmem
    exact (mem_placed_momentAfter hle).2 (.inl hmem)
  · intro id hmem hnew
    obtain ⟨k, hn, hn', hcurrent, -⟩ := ((mem_placed_momentAfter hle).1 hmem).resolve_left hnew
    exact ⟨k, hn, hn', hcurrent⟩
  · intro id
    rw [Trail.holds_iff, Trail.holds_iff, hpending, mem_placed_momentAfter hle, or_assoc]

/-- While a task runs, the tasks that wait for it stay as they are, so the run does what it would
do without them. -/
theorem momentAfter_add_before {n k : Nat} {m : Moment} {outer : List Task}
    (hstart : momentAfter c options w r n = m.before outer)
    (hrunning : ∀ j < k,
      ((Surroundings.step ⟨c, w, r, options.indentWidth⟩)^[j] m).tasks ≠ []) :
    ∀ j ≤ k, momentAfter c options w r (n + j) =
      ((Surroundings.step ⟨c, w, r, options.indentWidth⟩)^[j] m).before outer := by
  intro j hj
  rw [momentAfter_add, hstart,
    Surroundings.iterate_before fun i hi => hrunning i (Nat.lt_of_lt_of_le hi hj)]

theorem performs_of_running {n k : Nat} {m : Moment} {outer : List Task}
    (hstart : momentAfter c options w r n = m.before outer) (hk : 0 < k)
    (hrunning : ∀ j < k,
      ((Surroundings.step ⟨c, w, r, options.indentWidth⟩)^[j] m).tasks ≠ [])
    (hleft : (momentAfter c options w r (n + k)).tasks = outer)
    (hanswer : (momentAfter c options w r (n + k)).answer.isSome) :
    Performs (momentAfter c options w r) outer n (n + k) where
  lt := Nat.lt_add_of_pos_right hk
  inside i hle hlt := by
    obtain ⟨j, rfl⟩ := Nat.exists_eq_add_of_le hle
    have hj : j < k := Nat.lt_of_add_lt_add_left hlt
    exact ⟨_, hrunning j hj,
      congrArg Moment.tasks (momentAfter_add_before hstart hrunning j (Nat.le_of_lt hj))⟩
  left := hleft
  answered := hanswer

theorem call_returns {n : Nat} {task : Task} {outer : List Task} (hcall : task.Call)
    (htasks : (momentAfter c options w r n).tasks = task :: outer)
    (hanswer : (momentAfter c options w r n).answer = none) :
    ∃ n' outcome, Performs (momentAfter c options w r) outer n n' ∧
      KeepsTrail (momentAfter c options w r) n n' ∧
      (momentAfter c options w r n').answer = some outcome ∧
      Surroundings.ComesTo ⟨c, w, r, options.indentWidth⟩ w.size task
        (momentAfter c options w r n).trail outcome (momentAfter c options w r n').trail := by
  obtain ⟨outcome, t', hwalk, hreplies⟩ := Surroundings.exists_replies
    (s := ⟨c, w, r, options.indentWidth⟩) hcall (momentAfter c options w r n).trail
  obtain ⟨k, begun', hend, hrunning⟩ :=
    hreplies.exists_first (momentAfter c options w r n).begun
  have hstart : momentAfter c options w r n =
      (Moment.mk [task] none (momentAfter c options w r n).trail
        (momentAfter c options w r n).begun).before outer := by
    rw [← hanswer]
    exact congrArg (fun tasks => { momentAfter c options w r n with tasks := tasks }) htasks
  have hreturn := momentAfter_add_before hstart hrunning k (Nat.le_refl k)
  rw [hend] at hreturn
  have hleft : (momentAfter c options w r (n + k)).tasks = outer := congrArg Moment.tasks hreturn
  have hleave : (momentAfter c options w r (n + k)).answer = some outcome :=
    congrArg Moment.answer hreturn
  have hsame : (momentAfter c options w r (n + k)).inProgress =
      (momentAfter c options w r n).inProgress := by
    rw [Moment.inProgress, Moment.inProgress, hleft, htasks,
      List.filterMap_cons_none hcall.rendered?_eq_none]
  have hpos : 0 < k := by
    refine Nat.pos_of_ne_zero ?_
    rintro rfl
    cases hend
  refine ⟨n + k, outcome, performs_of_running hstart hpos hrunning hleft ?_,
    keepsTrail_of_inProgress (Nat.le_add_right n k) hsame, hleave, ?_⟩
  · rw [hleave, Option.isSome_some]
  · rw [hreturn]
    exact hwalk

end Moments

/-- Whatever the catalog and the graph, every call of a run leaves the stack of expressions as it
was and only adds statements to those that are placed, also when it fails. -/
theorem stackDiscipline_momentAfter (c : Catalog) (options : GenerateOptions) (w : Workspace)
    (r : Registries) : StackDiscipline c options w r where
  ends := ended_of_generate c options w r
  simple n := by
    have hfits := fits_momentAfter c options w r n
    rw [hfits.pending]
    exact hfits.nodup.sublist (List.filter_sublist.map _)
  calls _ _ _ hcall htasks hanswer := call_returns hcall htasks hanswer

/-- A statement with a second choice: an error of the first one is not handed on. -/
def secondChoice : BlockType where
  name := "second_choice"
  kind := .statement
  output := none
  fields := []
  defaults := []
  rule _ _ := .value "FIRST" (.upTo .none) fun
    | .ok code => .done (.ok (.statement code))
    | .error _ => .needValue "SECOND" (.upTo .none) fun code => .done (.ok (.statement code))

def echo : BlockType where
  name := "echo"
  kind := .value
  output := none
  fields := []
  defaults := []
  rule _ _ := .needValue "A" (.upTo .none) fun code => .done (.ok (.value code .atomic))

def choiceCatalog : Catalog := Catalog.empty.registerAll [secondChoice, echo]

/-- The first choice is plugged into itself. -/
def choiceGraph : Workspace :=
  Workspace.empty
    |>.insert "top" (Block.new "second_choice" |>.withInput "FIRST" "loop"
      |>.withInput "SECOND" "leaf" |>.atTopLevel 0 0)
    |>.insert "loop" (Block.new "echo" |>.withInput "A" "loop")
    |>.insert "leaf" (Block.new "echo")

/-- The call of the first choice fails with nothing left on the stack, and the run goes on. -/
theorem stackDiscipline_choiceGraph :
    (∃ n' > 3, (momentAfter choiceCatalog ⟨2, false⟩ choiceGraph .empty n').answer =
        some (.error (.cyclicGraph "loop")) ∧
      (momentAfter choiceCatalog ⟨2, false⟩ choiceGraph .empty n').trail = ⟨["top"], []⟩) ∧
    generate choiceCatalog ⟨2, false⟩ choiceGraph .empty = .ok "0" := by
  have hdiscipline := stackDiscipline_momentAfter choiceCatalog ⟨2, false⟩ choiceGraph .empty
  obtain ⟨n', outcome, hperforms, hkeeps, hanswer, hwalk⟩ :=
    hdiscipline.calls 3 (.value "loop") _ (.value "loop") rfl rfl
  have hloop : Surroundings.walkValue ⟨choiceCatalog, choiceGraph, .empty, 2⟩
      (Surroundings.render ⟨choiceCatalog, choiceGraph, .empty, 2⟩ choiceGraph.size) "loop"
      (momentAfter choiceCatalog ⟨2, false⟩ choiceGraph .empty 3).trail =
        some (.error (.cyclicGraph "loop"), ⟨["top"], []⟩) := rfl
  refine ⟨⟨n', hperforms.lt, ?_⟩, rfl⟩
  cases hwalk with
  | value hvalue =>
      obtain ⟨houtcome, htrail⟩ := Prod.mk.inj (Option.some.inj (hloop.symm.trans hvalue))
      refine ⟨?_, htrail.symm⟩
      cases outcome with
      | error e =>
          cases houtcome
          exact hanswer
      | ok phrase => cases houtcome

end AgentBlocks
