import AgentBlocks.Workspace.Basic
import Mathlib.Data.List.Perm.Subperm

/-!
Block graphs as sets of ids: their keys, their chains and their top-level blocks.
-/
namespace AgentBlocks

namespace Dict

variable {α : Type}

theorem nodup_keys (d : Dict α) : d.keys.Nodup := by
  have hne : d.entries.Pairwise fun a b => a.1 ≠ b.1 :=
    List.Pairwise.imp Text.ne_of_before d.increase
  exact List.pairwise_map.2 hne

theorem mem_keys_of_isSome {d : Dict α} {key : String} (h : (d.get? key).isSome) :
    key ∈ d.keys := by
  rw [← contains_eq_isSome_get?, contains, List.any_eq_true] at h
  obtain ⟨entry, hentry, hkey⟩ := h
  exact List.mem_map.2 ⟨entry, hentry, beq_iff_eq.1 hkey⟩

theorem mem_of_get? {d : Dict α} {key : String} {value : α} (h : d.get? key = some value) :
    (key, value) ∈ d.entries := by
  obtain ⟨⟨key', value'⟩, hfind, rfl⟩ := Option.map_eq_some_iff.1 h
  have hkey := List.find?_some hfind
  rw [beq_iff_eq] at hkey
  subst hkey
  exact List.mem_of_find?_eq_some hfind

end Dict

namespace Workspace

variable {w : Workspace}

/-- Different blocks of the graph are at most as many as all of them. -/
theorem length_le_size {ids : List String} (hnodup : ids.Nodup)
    (hids : ∀ id ∈ ids, (w.block? id).isSome) : ids.length ≤ w.size := by
  have hsubset : ids ⊆ w.blocks.keys := fun id hid => Dict.mem_keys_of_isSome (hids id hid)
  have hle := (hnodup.subperm hsubset).length_le
  rwa [Dict.keys, List.length_map] at hle

/-- The ids along `next`, from a block to the end of its chain. -/
inductive Chain (w : Workspace) : String → List String → Prop
  | last {id} : (w.block? id).bind (·.next) = none → Chain w id [id]
  | cons {id next rest} : (w.block? id).bind (·.next) = some next → Chain w next rest →
      Chain w id (id :: rest)

theorem Chain.unique {id : String} {ids ids' : List String} (h : w.Chain id ids)
    (h' : w.Chain id ids') : ids' = ids := by
  induction h generalizing ids' with
  | last hend =>
      cases h' with
      | last _ => rfl
      | cons hnext' _ => cases hend.symm.trans hnext'
  | cons hnext _ ih =>
      cases h' with
      | last hend' => cases hnext.symm.trans hend'
      | cons hnext' hrest' =>
          cases hnext.symm.trans hnext'
          rw [ih hrest']

/-- The ids follow each other along `next`, from a first reference up to a last one. -/
inductive Segment (w : Workspace) : Option String → List String → Option String → Prop
  | nil (last) : Segment w last [] last
  | cons {id ids last} : Segment w ((w.block? id).bind (·.next)) ids last →
      Segment w (some id) (id :: ids) last

theorem Segment.chain {id : String} {ids : List String} (h : w.Segment (some id) ids none) :
    w.Chain id ids := by
  generalize hfirst : some id = first at h
  generalize hlast : none = last at h
  induction h generalizing id with
  | nil =>
      subst hlast
      cases hfirst
  | @cons id' ids last hrest ih =>
      obtain rfl : id = id' := Option.some.inj hfirst
      cases hnext : (w.block? id).bind (·.next) with
      | none =>
          rw [hnext, ← hlast] at hrest
          cases hrest
          exact .last hnext
      | some next => exact .cons hnext (ih hnext.symm hlast)

/-- A chain is followed to its end, or for all of the steps. -/
theorem segment_follow (w : Workspace) (n : Nat) (id : String) :
    ∃ last, w.Segment (some id) (w.follow n id) last ∧
      (last = none ∨ (w.follow n id).length = n + 1) := by
  induction n generalizing id with
  | zero => exact ⟨_, .cons (.nil _), .inr rfl⟩
  | succ n ih =>
      rw [follow]
      split
      · rename_i hend
        refine ⟨none, .cons ?_, .inl rfl⟩
        rw [hend]
        exact .nil none
      · rename_i next hnext
        obtain ⟨last, hsegment, hlast⟩ := ih next
        refine ⟨last, .cons ?_, ?_⟩
        · rwa [hnext]
        · exact hlast.imp_right fun hlength => by rw [List.length_cons, hlength]

/-- A chain without repetition is not cut short. -/
theorem segment_chainIds (w : Workspace) (head : String) :
    ∃ last, w.Segment (some head) (w.chainIds head) last ∧
      ((w.chainIds head).Nodup → (∀ id ∈ w.chainIds head, (w.block? id).isSome) → last = none) := by
  obtain ⟨last, hsegment, hlast⟩ := w.segment_follow w.size head
  refine ⟨last, hsegment, fun hnodup hids => ?_⟩
  rcases hlast with hlast | hlength
  · exact hlast
  · have hle := length_le_size hnodup hids
    unfold chainIds at hle
    omega

theorem chain_chainIds {head : String} (hnodup : (w.chainIds head).Nodup)
    (hids : ∀ id ∈ w.chainIds head, (w.block? id).isSome) : w.Chain head (w.chainIds head) := by
  obtain ⟨last, hsegment, hlast⟩ := w.segment_chainIds head
  obtain rfl := hlast hnodup hids
  exact hsegment.chain

theorem insort_perm (p : Position) (ps : List Position) : (p.insort ps).Perm (p :: ps) := by
  induction ps with
  | nil => exact .refl _
  | cons q rest ih =>
      rw [Position.insort]
      split
      · exact (ih.cons q).trans (.swap p q rest)
      · exact .refl _

theorem foldr_insort_perm (ps : List Position) : (ps.foldr Position.insort []).Perm ps := by
  induction ps with
  | nil => exact .refl _
  | cons p rest ih => exact (insort_perm p _).trans (ih.cons p)

theorem topLevelIds_perm (w : Workspace) :
    w.topLevelIds.Perm ((w.blocks.entries.filter (·.2.topLevel)).map (·.1)) := by
  have hperm := (foldr_insort_perm
    ((w.blocks.entries.filter (·.2.topLevel)).map fun e => positionOf e.1 e.2)).map (·.id)
  rw [List.map_map] at hperm
  exact hperm

theorem nodup_topLevelIds (w : Workspace) : w.topLevelIds.Nodup := by
  rw [w.topLevelIds_perm.nodup_iff]
  exact w.blocks.nodup_keys.sublist (List.filter_sublist.map _)

end Workspace

end AgentBlocks
