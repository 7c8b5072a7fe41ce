import AgentBlocks.Proofs.Workspace.Order
import Mathlib.Data.List.Nodup

/-!
Renamed block graphs. An id is replaced by another one wherever it stands: where a block bears it,
and where a block refers to it, also when there is no block under it.
-/
namespace AgentBlocks

namespace Dict

variable {α β : Type} {f : String → String}

def mapValues (g : α → β) (d : Dict α) : Dict β :=
  ⟨d.entries.map fun e : String × α => (e.1, g e.2), List.pairwise_map.2 d.increase⟩

/-- The dictionary with the same values under other keys. -/
def mapKeys (f : String → String) (d : Dict α) : Dict α :=
  ofList (d.entries.map fun e => (f e.1, e.2))

theorem get?_mapValues (g : α → β) (d : Dict α) (key : String) :
    (d.mapValues g).get? key = (d.get? key).map g := by
  simp [mapValues, get?, List.find?_map, Function.comp_def]

theorem place_perm {key : String} {value : α} {es : List (String × α)}
    (h : key ∉ es.map (·.1)) : (place key value es).Perm ((key, value) :: es) := by
  induction es with
  | nil => exact .refl _
  | cons e rest ih =>
      obtain ⟨k, v⟩ := e
      obtain ⟨hne, hrest⟩ := not_or.1 (mt List.mem_cons.2 h)
      rw [place, if_neg (show ¬key = k from hne)]
      split
      · exact .refl _
      · exact ((ih hrest).cons _).trans (.swap _ _ _)

theorem foldl_insert_perm {es : List (String × α)} {d : Dict α}
    (h : ((d.entries ++ es).map (·.1)).Nodup) :
    (es.foldl (fun d e => d.insert e.1 e.2) d).entries.Perm (d.entries ++ es) := by
  induction es generalizing d with
  | nil => simp
  | cons e rest ih =>
      have hfresh : e.1 ∉ d.entries.map (·.1) := by
        rw [List.map_append, List.map_cons] at h
        exact fun hmem => (List.disjoint_of_nodup_append h) hmem List.mem_cons_self
      have hplaced : (d.insert e.1 e.2).entries.Perm (e :: d.entries) := place_perm hfresh
      have hmoved : ((d.insert e.1 e.2).entries ++ rest).Perm (d.entries ++ e :: rest) :=
        (hplaced.append_right rest).trans List.perm_middle.symm
      exact (ih ((hmoved.map _).nodup_iff.2 h)).trans hmoved

theorem mapKeys_perm (hf : f.Injective) (d : Dict α) :
    (d.mapKeys f).entries.Perm (d.entries.map fun e => (f e.1, e.2)) := by
  refine foldl_insert_perm (d := empty) ?_
  have hkeys : (d.entries.map fun e => (f e.1, e.2)).map (·.1) = d.keys.map f := by
    simp [keys, Function.comp_def]
  change ((d.entries.map fun e => (f e.1, e.2)).map (·.1)).Nodup
  rw [hkeys]
  exact d.nodup_keys.map hf

theorem get?_eq_some_iff {d : Dict α} {key : String} {value : α} :
    d.get? key = some value ↔ (key, value) ∈ d.entries := by
  refine ⟨mem_of_get?, fun hmem => ?_⟩
  have hkey : key ∈ d.keys := List.mem_map.2 ⟨_, hmem, rfl⟩
  have hsome : (d.get? key).isSome := by
    rw [← contains_eq_isSome_get?, contains, List.any_eq_true]
    exact ⟨_, hmem, beq_self_eq_true key⟩
  obtain ⟨value', hvalue⟩ := Option.isSome_iff_exists.1 hsome
  have hpair := List.inj_on_of_nodup_map d.nodup_keys (mem_of_get? hvalue) hmem rfl
  cases hpair
  exact hvalue

theorem get?_mapKeys (hf : f.Injective) (d : Dict α) (key : String) :
    (d.mapKeys f).get? (f key) = d.get? key := by
  ext value
  rw [get?_eq_some_iff, get?_eq_some_iff, (mapKeys_perm hf d).mem_iff, List.mem_map]
  constructor
  · rintro ⟨⟨key', value'⟩, hmem, heq⟩
    obtain ⟨hkey, rfl⟩ := Prod.mk.inj heq
    rwa [← hf hkey]
  · exact fun hmem => ⟨_, hmem, rfl⟩

end Dict

/-- The block with renamed references. -/
def Block.rename (f : String → String) (b : Block) : Block :=
  { b with
    inputs := b.inputs.mapValues f
    statements := b.statements.mapValues f
    next := b.next.map f }

namespace Workspace

variable {w : Workspace} {f : String → String}

def rename (f : String → String) (w : Workspace) : Workspace :=
  ⟨(w.blocks.mapValues (Block.rename f)).mapKeys f⟩

/-- Top-level blocks at the same place keep the order of their ids. -/
def KeepsTies (f : String → String) (w : Workspace) : Prop :=
  ∀ p ∈ w.topLevelPositions, ∀ q ∈ w.topLevelPositions, p.y = q.y → p.x = q.x →
    Text.before p.id q.id = true → Text.before (f p.id) (f q.id) = true

instance (f : String → String) (w : Workspace) : Decidable (w.KeepsTies f) :=
  inferInstanceAs (Decidable (∀ p ∈ _, ∀ q ∈ _, _))

theorem entries_rename_perm (hf : f.Injective) (w : Workspace) :
    (w.rename f).blocks.entries.Perm (w.blocks.entries.map fun e => (f e.1, e.2.rename f)) := by
  have hperm := (w.blocks.mapValues (Block.rename f)).mapKeys_perm hf
  rw [Dict.mapValues, List.map_map] at hperm
  exact hperm

theorem block?_rename (hf : f.Injective) (w : Workspace) (id : String) :
    (w.rename f).block? (f id) = (w.block? id).map (Block.rename f) := by
  rw [block?, rename, Dict.get?_mapKeys hf, Dict.get?_mapValues]
  rfl

theorem size_rename (hf : f.Injective) (w : Workspace) : (w.rename f).size = w.size := by
  have hlength := (entries_rename_perm hf w).length_eq
  rwa [List.length_map] at hlength

theorem next_rename (hf : f.Injective) (w : Workspace) (id : String) :
    ((w.rename f).block? (f id)).bind (·.next) = ((w.block? id).bind (·.next)).map f := by
  rw [block?_rename hf]
  cases w.block? id <;> rfl

theorem chainIds_rename (hf : f.Injective) (w : Workspace) (head : String) :
    (w.rename f).chainIds (f head) = (w.chainIds head).map f := by
  have hfollow : ∀ n id, (w.rename f).follow n (f id) = (w.follow n id).map f := by
    intro n
    induction n with
    | zero => exact fun _ => rfl
    | succ n ih =>
        intro id
        rw [follow, follow, next_rename hf]
        cases (w.block? id).bind (·.next) with
        | none => rfl
        | some next => exact congrArg (f id :: ·) (ih next)
  rw [chainIds, chainIds, size_rename hf, hfollow]

theorem Position.not_precedes_of_precedes {p q : Position} (h : p.precedes q = true) :
    ¬q.precedes p = true := by
  intro h'
  have hself := precedes_iff.1 (precedes_trans h h')
  simp [Text.before_irrefl] at hself

/-- The order of the top-level blocks is that of their places; ids matter only at the same one. -/
theorem topLevelIds_rename (hf : f.Injective) (hties : w.KeepsTies f) :
    (w.rename f).topLevelIds = w.topLevelIds.map f := by
  have hpositions : (w.rename f).topLevelPositions =
      w.topLevelPositions.map fun p => { p with id := f p.id } := by
    refine List.Perm.eq_of_pairwise ?_ (w.rename f).pairwise_topLevelPositions ?_ ?_
    · intro p q _ _ h h'
      exact absurd h' (Position.not_precedes_of_precedes h)
    · refine List.pairwise_map.2 (w.pairwise_topLevelPositions.imp_of_mem ?_)
      intro p q hp hq h
      rw [Position.precedes_iff] at h ⊢
      refine h.imp_right fun ⟨hy, h⟩ => ⟨hy, h.imp_right fun ⟨hx, hid⟩ => ⟨hx, ?_⟩⟩
      exact hties p hp q hq (Int64.toInt_inj.1 hy) (Int64.toInt_inj.1 hx) hid
    · refine (w.rename f).topLevelPositions_perm.trans ?_
      refine (((entries_rename_perm hf w).filter _).map _).trans ?_
      refine .trans ?_ (w.topLevelPositions_perm.symm.map _)
      rw [List.filter_map, List.map_map, List.map_map]
      exact .refl _
  rw [topLevelIds, hpositions, List.map_map, topLevelIds, List.map_map]
  rfl

end Workspace

end AgentBlocks
