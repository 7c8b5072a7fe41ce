import AgentBlocks.Proofs.Catalog.DeclaredNames
import AgentBlocks.Proofs.Walk.Fields
import AgentBlocks.Proofs.Walk.SameRules

/-!
Graphs that spell the names of breeds and variables otherwise. Each name is written as it was
declared, so the program does not change.
-/
namespace AgentBlocks

open Text

namespace Workspace

/-- The graph is the same, but names of breeds and variables may be spelled otherwise in it. -/
structure Respelled (r : Registries) (w w' : Workspace) : Prop where
  wiring : w'.withoutFields = w.withoutFields
  fields : ∀ id b b', w.block? id = some b → w'.block? id = some b' → b.Respelled r b'

variable {r : Registries} {w w' : Workspace}

theorem Respelled.topLevelIds (h : w.Respelled r w') : w'.topLevelIds = w.topLevelIds := by
  rw [← topLevelIds_withoutFields, h.wiring, topLevelIds_withoutFields]

theorem Respelled.size (h : w.Respelled r w') : w'.size = w.size := by
  have hentries := congrArg Workspace.size h.wiring
  simpa [Workspace.size, Dict.size, withoutFields, Dict.mapValues] using hentries

theorem wiredLike_of_withoutFields {b b' : Block} (h : b'.withoutFields = b.withoutFields) :
    b'.WiredLike b where
  blockType := (congrArg Block.blockType h :)
  inputs := (congrArg Block.inputs h :)
  statements := (congrArg Block.statements h :)
  next := (congrArg Block.next h :)

theorem Respelled.sameRules {c : Catalog} (hc : c = .standard) (hr : r.Coherent)
    (h : w.Respelled r w') (width : Nat) : Surroundings.SameRules ⟨c, w, r, width⟩ w' := by
  refine ⟨h.size, fun id => ?_⟩
  change Option.Rel _ (w.block? id) (w'.block? id)
  cases hb : w.block? id with
  | none =>
      have hmissing := w'.block?_withoutFields id
      rw [h.wiring, block?_withoutFields, hb, Option.map_none, eq_comm,
        Option.map_eq_none_iff] at hmissing
      rw [hmissing]
      exact .none
  | some b =>
      obtain ⟨b', hb', hwiring⟩ := exists_block_of_withoutFields h.wiring.symm hb
      rw [hb']
      refine .some ⟨wiredLike_of_withoutFields hwiring, fun type htype => ?_⟩
      obtain ⟨d, hd, -, rfl⟩ := (hc ▸ Catalog.madeOf_standard : c.MadeOf Standard.designs) htype
      exact congrArg Template.rule (hr.template_respelled (h.fields id b b' hb hb') d hd)

end Workspace

namespace RegistryEdit

open Registries

/-- After any edits of a model without declarations, names of breeds and variables are written as
they were declared, and other spellings of them give the same program or the same error. -/
theorem writesDeclaredNames_run (edits : List RegistryEdit) :
    (run .empty edits).WritesDeclaredNames ∧ ∀ w w', w.Respelled (run .empty edits) w' →
      ∀ options, generate .standard options w' (run .empty edits) =
        generate .standard options w (run .empty edits) := by
  have hr := coherent_run coherent_empty edits
  refine ⟨hr.writesDeclaredNames, fun w w' hw options => ?_⟩
  exact generate_of_sameRules (hw.sameRules rfl hr options.indentWidth) hw.topLevelIds

/-- Turtles that hatch wolves and make them hungry. -/
def hatchesHungry (breed name : String) : Workspace :=
  Workspace.empty
    |>.insert "hatch" ((Block.new "agent_hatch").withStatement "DO" "change"
      |>.atTopLevel 0 0 |>.withField "BREED" (.text breed))
    |>.insert "change" ((Block.new "variable_change").withField "VAR" (.text name))

theorem respelled_hatchesHungry :
    (hatchesHungry "wolves" "hunger").Respelled (run .empty hungerEdits)
      (hatchesHungry "WOLF" "Hunger") := by
  rw [run_hungerEdits]
  refine ⟨rfl, fun id b b' hb hb' => ?_⟩
  have hmem : ⟨"wolves", "wolf", .turtle, false⟩ ∈
      builtinBreeds ++ [⟨"wolves", "wolf", .turtle, false⟩] := by simp
  have hwolves : Breed.answersTo ⟨"wolves", "wolf", .turtle, false⟩ "wolves" = true := by
    simp [Breed.answersTo]
  have hwolf : Breed.answersTo ⟨"wolves", "wolf", .turtle, false⟩ "WOLF" = true := by
    have hupper : fold "WOLF" = "wolf" := by decide +kernel
    have hlower : fold "wolf" = "wolf" := by decide +kernel
    rw [Breed.answersTo, Bool.or_eq_true, sameName_iff, sameName_iff, hupper, hlower]
    exact .inr rfl
  have hhunger : sameName "hunger" "Hunger" = true := by
    have hupper : fold "Hunger" = "hunger" := by decide +kernel
    have hlower : fold "hunger" = "hunger" := by decide +kernel
    rw [sameName_iff, hupper, hlower]
  simp only [hatchesHungry, Workspace.insert, Workspace.block?, Dict.get?_insert] at hb hb'
  split at hb
  · rename_i hid
    rw [if_pos hid] at hb'
    cases hb
    cases hb'
    exact Block.respelled_variable (v := ⟨"hunger", .breed "wolves"⟩) (by simp) (by simp) hhunger
  · rename_i hchange
    rw [if_neg hchange] at hb'
    split at hb
    · rename_i hid
      rw [if_pos hid] at hb'
      cases hb
      cases hb'
      exact Block.respelled_breed (b := ⟨"wolves", "wolf", .turtle, false⟩) hmem hwolves hwolf
    · cases hb

theorem writesDeclaredNames_hungerEdits :
    let r := run .empty hungerEdits
    r.WritesDeclaredNames ∧
      (hatchesHungry "wolves" "hunger").Respelled r (hatchesHungry "WOLF" "Hunger") ∧
      ∀ options, generate .standard options (hatchesHungry "WOLF" "Hunger") r =
        generate .standard options (hatchesHungry "wolves" "hunger") r := by
  obtain ⟨hnames, hrespelled⟩ := writesDeclaredNames_run hungerEdits
  exact ⟨hnames, respelled_hatchesHungry, hrespelled _ _ respelled_hatchesHungry⟩

end RegistryEdit

end AgentBlocks
