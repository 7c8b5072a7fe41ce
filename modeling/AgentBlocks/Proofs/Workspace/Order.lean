import AgentBlocks.Proofs.Workspace.Graph

/-!
The order of the top-level blocks: from top to bottom, then from left to right, then by id.
-/
namespace AgentBlocks.Workspace

theorem Position.precedes_iff {p q : Position} :
    p.precedes q = true ↔ p.y.toInt < q.y.toInt ∨ p.y.toInt = q.y.toInt ∧
      (p.x.toInt < q.x.toInt ∨ p.x.toInt = q.x.toInt ∧ Text.before p.id q.id = true) := by
  simp [Position.precedes]

theorem Position.precedes_trans {p q u : Position} (h : p.precedes q = true)
    (h' : q.precedes u = true) : p.precedes u = true := by
  rw [precedes_iff] at h h' ⊢
  rcases h with h | ⟨hy, h⟩
  · omega
  · rcases h' with h' | ⟨hy', h'⟩
    · omega
    · refine .inr ⟨hy.trans hy', ?_⟩
      rcases h with h | ⟨hx, h⟩
      · omega
      · rcases h' with h' | ⟨hx', h'⟩
        · omega
        · exact .inr ⟨hx.trans hx', Text.before_trans h h'⟩

/-- Of two positions with different ids one precedes the other. -/
theorem Position.precedes_of_not {p q : Position} (hne : p.id ≠ q.id)
    (h : ¬q.precedes p = true) : p.precedes q = true := by
  rw [precedes_iff] at h ⊢
  rcases Text.before_trichotomy p.id q.id with hid | hid | hid
  · simp only [hid, and_true]
    omega
  · exact absurd hid hne
  · simp only [hid, and_true] at h
    omega

theorem pairwise_insort {p : Position} {ps : List Position} (hne : ∀ q ∈ ps, p.id ≠ q.id)
    (hps : ps.Pairwise fun q u => q.precedes u = true) :
    (p.insort ps).Pairwise fun q u => q.precedes u = true := by
  induction ps with
  | nil => exact List.pairwise_singleton _ _
  | cons q rest ih =>
      obtain ⟨hq, hrest⟩ := List.pairwise_cons.1 hps
      rw [Position.insort]
      split
      · rename_i hfirst
        refine List.pairwise_cons.2 ⟨fun u hu => ?_, ih (fun u hu => hne u (by simp [hu])) hrest⟩
        rcases List.mem_cons.1 ((insort_perm p rest).mem_iff.1 hu) with rfl | hu
        · exact hfirst
        · exact hq u hu
      · rename_i hfirst
        have hpq := Position.precedes_of_not (hne q (by simp)) hfirst
        refine List.pairwise_cons.2 ⟨fun u hu => ?_, hps⟩
        rcases List.mem_cons.1 hu with rfl | hu
        · exact hpq
        · exact Position.precedes_trans hpq (hq u hu)

theorem pairwise_foldr_insort {ps : List Position} (hnodup : (ps.map (·.id)).Nodup) :
    (ps.foldr Position.insort []).Pairwise fun q u => q.precedes u = true := by
  induction ps with
  | nil => exact .nil
  | cons p rest ih =>
      obtain ⟨hp, hrest⟩ := List.nodup_cons.1 hnodup
      refine pairwise_insort (fun q hq hid => hp ?_) (ih hrest)
      have hmem := List.mem_map_of_mem (f := (·.id)) ((foldr_insort_perm rest).mem_iff.1 hq)
      rwa [← hid] at hmem

theorem pairwise_topLevelPositions (w : Workspace) :
    w.topLevelPositions.Pairwise fun p q => p.precedes q = true := by
  refine pairwise_foldr_insort ?_
  rw [List.map_map]
  exact w.blocks.nodup_keys.sublist (List.filter_sublist.map _)

theorem topLevelPositions_perm (w : Workspace) :
    w.topLevelPositions.Perm
      ((w.blocks.entries.filter (·.2.topLevel)).map fun e => positionOf e.1 e.2) :=
  foldr_insort_perm _

end AgentBlocks.Workspace
