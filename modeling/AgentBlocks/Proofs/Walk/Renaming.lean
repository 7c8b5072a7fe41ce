import AgentBlocks.Proofs.Catalog.Purity
import AgentBlocks.Proofs.Walk.Depth
import AgentBlocks.Proofs.Walk.Step
import AgentBlocks.Proofs.Workspace.Renaming

/-!
Ids are only names. Under other ids a graph has the same program, or fails with the same error at
the block that the failing one has become.
-/
namespace AgentBlocks

/-- The error at a renamed block. -/
def GenerateError.rename (f : String → String) : GenerateError → GenerateError
  | .unknownBlockType blockType id => .unknownBlockType blockType (f id)
  | .missingBlock id => .missingBlock (f id)
  | .cyclicGraph id => .cyclicGraph (f id)

def Trail.rename (f : String → String) (t : Trail) : Trail := ⟨t.placed.map f, t.pending.map f⟩

variable {f : String → String}

theorem Trail.holds_rename (hf : f.Injective) (t : Trail) (id : String) :
    (t.rename f).holds (f id) = t.holds id := by
  rw [Bool.eq_iff_iff, holds_iff, holds_iff, rename, List.mem_map_of_injective hf,
    List.mem_map_of_injective hf]

theorem Block.alike_rename (f : String → String) (b : Block) : (b.rename f).Alike b := by
  refine ⟨rfl, rfl, fun slot => ?_, fun slot => ?_⟩
  · rw [hasInput, hasInput, Dict.contains_eq_isSome_get?, Dict.contains_eq_isSome_get?, rename,
      Dict.get?_mapValues, Option.isSome_map]
  · rw [Dict.contains_eq_isSome_get?, Dict.contains_eq_isSome_get?, rename, Dict.get?_mapValues,
      Option.isSome_map]

namespace Walk

variable {α β : Type} {w w' : Walk α} {id : String}

/-- The second walk does under the new ids what the first one does. -/
def Renamed (f : String → String) (w w' : Walk α) : Prop :=
  ∀ t, w' (t.rename f) = (w t).map fun out => (out.1.mapError (·.rename f), out.2.rename f)

theorem renamed_result (r : Except GenerateError α) :
    Renamed f (result r) (result (r.mapError (·.rename f))) := fun _ => rfl

theorem renamed_pure (a : α) : Renamed f (pure a : Walk α) (pure a) := fun _ => rfl

theorem Renamed.bind {next next' : α → Walk β} (hw : Renamed f w w')
    (hnext : ∀ a, Renamed f (next a) (next' a)) : Renamed f (w >>= next) (w' >>= next') := by
  intro t
  change w'.andThen next' (t.rename f) = (w.andThen next t).map _
  unfold andThen
  rw [hw t]
  cases w t with
  | none => rfl
  | some out =>
      obtain ⟨outcome, t₁⟩ := out
      cases outcome with
      | error e => rfl
      | ok a => exact hnext a t₁

theorem renamed_checkFree (hf : f.Injective) (id : String) :
    Renamed f (checkFree id) (checkFree (f id)) := by
  intro t
  unfold checkFree
  rw [t.holds_rename hf]
  cases t.holds id <;> rfl

theorem renamed_place (hf : f.Injective) (id : String) : Renamed f (place id) (place (f id)) :=
  (renamed_checkFree hf id).bind fun _ _ => rfl

theorem Renamed.inside (hw : Renamed f w w') : Renamed f (w.inside id) (w'.inside (f id)) := by
  intro t
  have henter : (t.rename f).enter (f id) = (t.enter id).rename f := rfl
  unfold Walk.inside
  rw [henter, hw]
  cases w (t.enter id) with
  | none => rfl
  | some out => simp [Trail.rename, Trail.leave, List.map_tail]

end Walk

namespace Surroundings

open Walk

variable {s : Surroundings}

/-- The surroundings with the graph under other ids. -/
def rename (f : String → String) (s : Surroundings) : Surroundings :=
  { s with workspace := s.workspace.rename f }

theorem lookup_rename (hf : f.Injective) (s : Surroundings) (id : String) :
    (s.rename f).lookup (f id) =
      ((s.lookup id).map fun found => (found.1.rename f, found.2)).mapError (·.rename f) := by
  unfold lookup
  rw [rename, Workspace.block?_rename hf]
  cases s.workspace.block? id with
  | none => rfl
  | some b =>
      have htype : (b.rename f).blockType = b.blockType := rfl
      simp only [Option.map_some, htype]
      cases s.catalog.type? b.blockType with
      | none => rfl
      | some type => rfl

theorem renamed_lookup {α : Type} (hf : f.Injective) {id : String}
    {next next' : Block × BlockType → Walk α}
    (hnext : ∀ b type, s.lookup id = .ok (b, type) →
      Renamed f (next (b, type)) (next' (b.rename f, type))) :
    Renamed f (result (s.lookup id) >>= next) (result ((s.rename f).lookup (f id)) >>= next') := by
  rw [lookup_rename hf]
  cases hlookup : s.lookup id with
  | error e => exact renamed_result (.error e)
  | ok found => exact hnext found.1 found.2 hlookup

/-- A rule asks the same slots of the renamed block and is given the same texts. -/
theorem renamed_runRule {b : Block} {type : BlockType}
    {value value' : String → Walk (String × Precedence)} {chain chain' : String → Walk String}
    (hvalue : ∀ id, Renamed f (value id) (value' (f id)))
    (hchain : ∀ id, Renamed f (chain id) (chain' (f id))) {rule : Rule} {links : List Link}
    (hrule : rule.Visits links) :
    Renamed f (s.runRule b type value chain rule)
      ((s.rename f).runRule (b.rename f) type value' chain' rule) := by
  induction hrule with
  | done phrase => exact renamed_result (.ok phrase)
  | @value slot bound next links error ok ih =>
      have hinput : (b.rename f).inputs.get? slot = (b.inputs.get? slot).map f :=
        Dict.get?_mapValues f b.inputs slot
      cases hslot : b.inputs.get? slot with
      | none =>
          rw [hslot, Option.map_none] at hinput
          rw [runRule_value_of_empty hslot, runRule_value_of_empty hinput]
          exact ih _
      | some child =>
          rw [hslot, Option.map_some] at hinput
          rw [runRule_value_of_filled hslot error, runRule_value_of_filled hinput error]
          exact (hvalue child).bind fun a => ih _
  | @body slot next links error ok ih =>
      have hstatement : (b.rename f).statements.get? slot = (b.statements.get? slot).map f :=
        Dict.get?_mapValues f b.statements slot
      cases hslot : b.statements.get? slot with
      | none =>
          rw [hslot, Option.map_none] at hstatement
          rw [runRule_statements_of_empty hslot, runRule_statements_of_empty hstatement]
          exact ih _
      | some head =>
          rw [hslot, Option.map_some] at hstatement
          rw [runRule_statements_of_filled hslot error,
            runRule_statements_of_filled hstatement error]
          exact (hchain head).bind fun body => ih _

/-- Two ways of rendering do the same for the blocks of the graph and for the renamed ones. -/
def RendersRenamed (f : String → String) (s : Surroundings)
    (render render' : Block → BlockType → Walk Phrase) : Prop :=
  ∀ id b type, s.lookup id = .ok (b, type) → Renamed f (render b type) (render' (b.rename f) type)

section Render

variable {render render' : Block → BlockType → Walk Phrase} (hf : f.Injective)
  (hrender : s.RendersRenamed f render render')
include hf hrender

theorem renamed_walkValue (id : String) :
    Renamed f (s.walkValue render id) ((s.rename f).walkValue render' (f id)) := by
  refine (renamed_checkFree hf id).bind fun _ => renamed_lookup hf fun b type hlookup => ?_
  exact (hrender id b type hlookup).inside.bind fun _ => renamed_pure _

theorem renamed_walkBlocks (ids : List String) :
    Renamed f (s.walkBlocks render ids) ((s.rename f).walkBlocks render' (ids.map f)) := by
  induction ids with
  | nil => exact renamed_pure []
  | cons id rest ih =>
      refine (renamed_place hf id).bind fun _ => renamed_lookup hf fun b type hlookup => ?_
      refine (hrender id b type hlookup).bind fun _ => ?_
      exact ih.bind fun _ => renamed_pure _

theorem renamed_walkChain (head : String) :
    Renamed f (s.walkChain render head) ((s.rename f).walkChain render' (f head)) := by
  rw [walkChain, walkChain, rename, Workspace.chainIds_rename hf]
  exact (renamed_walkBlocks hf hrender _).bind fun _ => renamed_pure _

end Render

variable (hf : f.Injective) (hsteady : s.catalog.Steady) (hpure : s.catalog.Pure)
include hf hsteady hpure

theorem rendersRenamed_render (depth : Nat) :
    s.RendersRenamed f (s.render depth) ((s.rename f).render depth) := by
  induction depth with
  | zero => exact fun _ _ _ _ _ => rfl
  | succ depth ih =>
      intro id b type hlookup
      have htype := (s.lookup_eq_ok.1 hlookup).2
      have hrule : type.rule (b.rename f) s.registries = type.rule b s.registries :=
        hpure.alike htype (b.alike_rename f) s.registries
      obtain ⟨links, -, hvisits⟩ := hsteady _ type htype
      rw [render, render, rename, hrule]
      exact renamed_runRule (renamed_walkValue hf ih) (renamed_walkChain hf ih)
        (hvisits b s.registries)

theorem renamed_walkHeads (depth : Nat) (heads : List String) :
    Renamed f (s.walkHeads depth heads) ((s.rename f).walkHeads depth (heads.map f)) := by
  induction heads with
  | nil => exact renamed_pure []
  | cons head rest ih =>
      have hhead := renamed_walkChain hf (rendersRenamed_render hf hsteady hpure depth) head
      exact hhead.bind fun _ => ih.bind fun _ => renamed_pure _

end Surroundings

theorem generate_eq_of_renamed {c : Catalog} (hsteady : c.Steady) (hpure : c.Pure)
    (hf : f.Injective) {w : Workspace} (hties : w.KeepsTies f) (options : GenerateOptions)
    (r : Registries) :
    generate c options (w.rename f) r = (generate c options w r).mapError (·.rename f) := by
  have hrenamed := Surroundings.renamed_walkHeads
    (s := ⟨c, w, r, options.indentWidth⟩) hf hsteady hpure w.size w.topLevelIds .start
  obtain ⟨outcome, t, hwalk, heq⟩ := generate_eq_map c options w r
  obtain ⟨outcome', t', hwalk', heq'⟩ := generate_eq_map c options (w.rename f) r
  rw [w.topLevelIds_rename hf hties, w.size_rename hf] at hwalk'
  rw [hwalk, Option.map_some] at hrenamed
  cases hwalk'.symm.trans hrenamed
  rw [heq, heq']
  cases outcome <;> rfl

/-- Under other ids that keep the order of the top-level blocks at the same place, a graph has the
same program, or the same error at the renamed block. -/
theorem generate_rename (hf : f.Injective) {w : Workspace} (hties : w.KeepsTies f)
    (options : GenerateOptions) (r : Registries) :
    generate .standard options (w.rename f) r =
      (generate .standard options w r).mapError (·.rename f) :=
  generate_eq_of_renamed Catalog.steady_standard Catalog.pure_standard hf hties options r

/-- Two statements at the same place, the second one with a sum that is its own operand. -/
def sumOfItself : Workspace :=
  Workspace.empty
    |>.insert "a" (Block.new "observer_tick" |>.atTopLevel 0 0)
    |>.insert "b" ((Block.new "output_show").withInput "VALUE" "sum" |>.atTopLevel 0 0)
    |>.insert "sum" ((Block.new "math_add").withInput "B" "sum")

def reversed (id : String) : String := String.ofList id.toList.reverse

theorem reversed_injective : reversed.Injective := by
  intro id id' h
  exact String.toList_inj.1 (List.reverse_injective (String.ofList_injective h))

theorem generate_rename_sumOfItself :
    sumOfItself.KeepsTies reversed ∧
      generate .standard .default sumOfItself .empty = .error (.cyclicGraph "sum") ∧
      generate .standard .default (sumOfItself.rename reversed) .empty =
        .error (.cyclicGraph "mus") := by
  have hties : sumOfItself.KeepsTies reversed := by decide +kernel
  have herror : generate .standard .default sumOfItself .empty = .error (.cyclicGraph "sum") := by
    decide +kernel
  refine ⟨hties, herror, ?_⟩
  rw [generate_rename reversed_injective hties, herror]
  decide +kernel

end AgentBlocks
