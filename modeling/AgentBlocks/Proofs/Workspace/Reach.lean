import AgentBlocks.Proofs.Workspace.Renaming

/-!
What a block graph reaches from its top-level blocks. Every reference of a reached block counts,
also one that its rule passes over.
-/
namespace AgentBlocks

namespace Dict

variable {α : Type}

/-- Entries with a property are the same and in the same order, when they are found in both. -/
theorem filter_entries_eq {d d' : Dict α} {p : String × α → Bool}
    (h : ∀ key value, p (key, value) = true →
      (d.get? key = some value ↔ d'.get? key = some value)) :
    d'.entries.filter p = d.entries.filter p := by
  refine List.Perm.eq_of_pairwise ?_ (d'.increase.filter p) (d.increase.filter p) ?_
  · intro e e' _ _ hbefore hafter
    have hself := Text.before_trans hbefore hafter
    rw [Text.before_irrefl] at hself
    cases hself
  · have hnodup : ∀ d : Dict α, (d.entries.filter p).Nodup := by
      intro d
      have hkeys : (d.entries.map Prod.fst).Nodup := d.nodup_keys
      exact hkeys.of_map.filter p
    refine (List.perm_ext_iff_of_nodup (hnodup d') (hnodup d)).2 fun ⟨key, value⟩ => ?_
    simp only [List.mem_filter, ← get?_eq_some_iff]
    exact and_congr_left fun hp => (h key value hp).symm

end Dict

/-- The ids that a block names: in its inputs, in its statement slots and as the next block. -/
def Block.references (b : Block) : List String :=
  b.inputs.entries.map (·.2) ++ b.statements.entries.map (·.2) ++ b.next.toList

namespace Workspace

variable {w w' : Workspace}

/-- The ids to which references lead from the top-level blocks, those of missing blocks included. -/
inductive Reachable (w : Workspace) : String → Prop
  | head {id b} : w.block? id = some b → b.topLevel = true → Reachable w id
  | along {id b child} : Reachable w id → w.block? id = some b → child ∈ b.references →
      Reachable w child

/-- The graphs have the same top-level blocks, and what the first one reaches from these stands
under the same id in the second one, or is missing in both. -/
structure AgreesWith (w w' : Workspace) : Prop where
  heads : ∀ id b, b.topLevel = true → (w.block? id = some b ↔ w'.block? id = some b)
  reached : ∀ id, w.Reachable id → w'.block? id = w.block? id

theorem AgreesWith.topLevelIds (h : w.AgreesWith w') : w'.topLevelIds = w.topLevelIds := by
  have hentries : w'.blocks.entries.filter (·.2.topLevel) =
      w.blocks.entries.filter (·.2.topLevel) :=
    Dict.filter_entries_eq h.heads
  rw [Workspace.topLevelIds, topLevelPositions, hentries, Workspace.topLevelIds, topLevelPositions]

theorem reachable_of_mem_topLevelIds {id : String} (h : id ∈ w.topLevelIds) : w.Reachable id := by
  obtain ⟨⟨id, b⟩, hmem, rfl⟩ := List.mem_map.1 (w.topLevelIds_perm.mem_iff.1 h)
  obtain ⟨hentry, htop⟩ := List.mem_filter.1 hmem
  exact .head (Dict.get?_eq_some_iff.2 hentry) htop

theorem not_reachable {id : String} (hmissing : w.block? id = none)
    (hnamed : ∀ e ∈ w.blocks.entries, id ∉ e.2.references) : ¬w.Reachable id := by
  intro h
  cases h with
  | head hb _ =>
      rw [hmissing] at hb
      cases hb
  | along _ hb hchild => exact hnamed _ (Dict.mem_of_get? hb) hchild

/-- A block that is not reached may be put in, or put in place of another one. -/
theorem agreesWith_insert {id : String} {b : Block} (hid : ¬w.Reachable id)
    (hb : b.topLevel = false) : w.AgreesWith (w.insert id b) where
  heads id' b' htop := by
    rw [block?, block?, insert, Dict.get?_insert]
    by_cases hsame : id = id'
    · subst hsame
      rw [if_pos rfl]
      constructor
      · exact fun h => absurd (.head h htop) hid
      · rintro ⟨⟩
        rw [hb] at htop
        cases htop
    · rw [if_neg hsame]
  reached id' hreached := by
    rw [block?, insert, Dict.get?_insert, if_neg, block?]
    rintro rfl
    exact hid hreached

end Workspace

end AgentBlocks
