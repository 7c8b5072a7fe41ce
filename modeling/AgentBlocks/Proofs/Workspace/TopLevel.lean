import AgentBlocks.Proofs.Text.Bytes
import AgentBlocks.Proofs.Workspace.Renaming
import Mathlib.Data.Int.ConditionallyCompleteOrder
import Mathlib.Data.List.Pairwise
import Mathlib.Data.Prod.Lex
import Mathlib.Order.ConditionallyCompleteLattice.Basic
import Mathlib.Tactic.Tauto

/-!
The top-level blocks by their coordinates as these stand in the graph, missing ones included.
-/
namespace AgentBlocks.Workspace

variable {w : Workspace} {α : Type}

/-- A missing coordinate comes last, behind every one that a block can have. -/
def missingLast : Option Int64 → WithTop ℤ
  | none => ⊤
  | some coordinate => (coordinate.toInt : ℤ)

/-- A missing coordinate counts as the greatest one that a block can have. -/
def missingAsGreatest (coordinate : Option Int64) : ℤ := (coordinate.getD Int64.maxValue).toInt

/-- What blocks of one row are ordered by: by `x`, then by the bytes of their ids. -/
def rowKey (count : Option Int64 → α) (id : String) (b : Block) : α ×ₗ List UInt8 :=
  toLex (count b.x, Text.bytes id)

/-- What top-level blocks are ordered by: by `y`, then by `x`, then by the bytes of their ids. -/
def sortKey (count : Option Int64 → α) (id : String) (b : Block) : α ×ₗ α ×ₗ List UInt8 :=
  toLex (count b.y, rowKey count id b)

/-- The top-level blocks are all listed, each of them once, and their keys increase. -/
structure ListsTopLevel (w : Workspace) [LT α] (key : String → Block → α) : Prop where
  mem_iff : ∀ id, id ∈ w.topLevelIds ↔ ∃ b, w.block? id = some b ∧ b.topLevel = true
  nodup : w.topLevelIds.Nodup
  increasing : w.topLevelIds.Pairwise fun id id' => ∀ b b',
    w.block? id = some b → w.block? id' = some b' → key id b < key id' b'

/-- The first block misses a coordinate and goes before the second one all the same, since the
second one has the greatest coordinate there. -/
def Overtakes (id : String) (b : Block) (id' : String) (b' : Block) : Prop :=
  b.y = none ∧ b'.y = some Int64.maxValue ∧
      rowKey missingAsGreatest id b < rowKey missingAsGreatest id' b' ∨
    b.y = b'.y ∧ b.x = none ∧ b'.x = some Int64.maxValue ∧ Text.bytes id < Text.bytes id'

theorem toInt_le_maxValue (n : Int64) : n.toInt ≤ Int64.maxValue.toInt := by
  simpa using n.toInt_le

theorem missingAsGreatest_le (c : Option Int64) : missingAsGreatest c ≤ missingAsGreatest none :=
  toInt_le_maxValue _

theorem missingAsGreatest_eq_iff {c d : Option Int64} :
    missingAsGreatest c = missingAsGreatest d ↔
      c = d ∨ c = some Int64.maxValue ∧ d = none ∨ c = none ∧ d = some Int64.maxValue := by
  simp only [missingAsGreatest, Int64.toInt_inj]
  cases c <;> cases d <;> simp [eq_comm]

theorem missingLast_injective : Function.Injective missingLast := by
  intro c d h
  cases c <;> cases d <;> simp_all [missingLast, Int64.toInt_inj]

theorem missingLast_lt_iff {c d : Option Int64} : missingLast c < missingLast d ↔
    missingAsGreatest c < missingAsGreatest d ∨ c = some Int64.maxValue ∧ d = none := by
  cases c with
  | none =>
      have hge : ¬missingAsGreatest none < missingAsGreatest d := (missingAsGreatest_le d).not_gt
      simp [missingLast, hge]
  | some m =>
      cases d with
      | none =>
          have hle := (missingAsGreatest_le (some m)).lt_or_eq
          rw [missingAsGreatest_eq_iff] at hle
          simpa [missingLast] using hle
      | some n => simp [missingLast, missingAsGreatest]

/-- Of two pairs in order, where a missing coordinate counts as the greatest one, the order is the
same with missing coordinates last, unless the first pair misses it and the second one has the
greatest one, or they differ in what follows. -/
theorem toLex_missingLast_lt_iff {β γ : Type} [LT β] [LT γ] {c d : Option Int64} {s t : β}
    {u v : γ} {p : Prop} (h : toLex (missingAsGreatest c, s) < toLex (missingAsGreatest d, t))
    (hrest : s < t → (u < v ↔ ¬p)) :
    toLex (missingLast c, u) < toLex (missingLast d, v) ↔
      ¬(c = none ∧ d = some Int64.maxValue ∧ s < t ∨ c = d ∧ p) := by
  rw [Prod.Lex.toLex_lt_toLex] at h ⊢
  simp only [missingLast_lt_iff, missingLast_injective.eq_iff]
  rcases h with hlt | ⟨heq, hst⟩
  · have hne : missingAsGreatest c ≠ missingAsGreatest d := hlt.ne
    rw [Ne, missingAsGreatest_eq_iff] at hne
    tauto
  · have hcases := missingAsGreatest_eq_iff.1 heq
    rcases hcases with rfl | ⟨rfl, rfl⟩ | ⟨rfl, rfl⟩
    · cases c <;> simp [hrest hst]
    · simp
    · simpa [hst] using missingAsGreatest_le _

theorem rowKey_missingLast_lt_iff {id id' : String} {b b' : Block}
    (h : rowKey missingAsGreatest id b < rowKey missingAsGreatest id' b') :
    rowKey missingLast id b < rowKey missingLast id' b' ↔
      ¬(b.x = none ∧ b'.x = some Int64.maxValue ∧ Text.bytes id < Text.bytes id') := by
  have hiff := toLex_missingLast_lt_iff h (p := False) fun hbytes => iff_of_true hbytes not_false
  rwa [and_false, or_false] at hiff

theorem sortKey_missingLast_lt_iff {id id' : String} {b b' : Block}
    (h : sortKey missingAsGreatest id b < sortKey missingAsGreatest id' b') :
    sortKey missingLast id b < sortKey missingLast id' b' ↔ ¬Overtakes id b id' b' :=
  toLex_missingLast_lt_iff h rowKey_missingLast_lt_iff

theorem Overtakes.sortKey_lt {id id' : String} {b b' : Block} (h : Overtakes id b id' b') :
    sortKey missingAsGreatest id b < sortKey missingAsGreatest id' b' := by
  rw [sortKey, sortKey, Prod.Lex.toLex_lt_toLex]
  rcases h with ⟨hy, hy', hrow⟩ | ⟨hy, hx, hx', hbytes⟩
  · exact .inr ⟨by rw [hy, hy']; rfl, hrow⟩
  · refine .inr ⟨by rw [hy], Prod.Lex.toLex_lt_toLex.2 (.inr ⟨?_, hbytes⟩)⟩
    rw [hx, hx']
    rfl

theorem sortKey_lt_iff_precedes {id id' : String} {b b' : Block} :
    sortKey missingAsGreatest id b < sortKey missingAsGreatest id' b' ↔
      (positionOf id b).precedes (positionOf id' b') = true := by
  simp only [sortKey, rowKey, Prod.Lex.toLex_lt_toLex]
  rw [Position.precedes_iff, Text.before_iff_bytes]
  rfl

theorem not_sortKey_lt {id id' : String} {b b' : Block}
    (h : sortKey missingAsGreatest id b < sortKey missingAsGreatest id' b') :
    ¬sortKey missingAsGreatest id' b' < sortKey missingAsGreatest id b := by
  rw [sortKey_lt_iff_precedes] at h ⊢
  intro hback
  have hself := Position.precedes_trans h hback
  rw [Position.precedes_iff, Text.before_irrefl] at hself
  simp at hself

theorem mem_topLevelIds_iff {id : String} :
    id ∈ w.topLevelIds ↔ ∃ b, w.block? id = some b ∧ b.topLevel = true := by
  rw [w.topLevelIds_perm.mem_iff, List.mem_map]
  constructor
  · rintro ⟨⟨id, b⟩, hmem, rfl⟩
    obtain ⟨hentry, htop⟩ := List.mem_filter.1 hmem
    exact ⟨b, Dict.get?_eq_some_iff.2 hentry, htop⟩
  · rintro ⟨b, hblock, htop⟩
    exact ⟨(id, b), List.mem_filter.2 ⟨Dict.get?_eq_some_iff.1 hblock, htop⟩, rfl⟩

theorem eq_positionOf {p : Position} {b : Block} (hp : p ∈ w.topLevelPositions)
    (hblock : w.block? p.id = some b) : p = positionOf p.id b := by
  obtain ⟨⟨id, b'⟩, hmem, rfl⟩ := List.mem_map.1 (w.topLevelPositions_perm.mem_iff.1 hp)
  have hentry : w.block? id = some b' := Dict.get?_eq_some_iff.2 (List.mem_filter.1 hmem).1
  obtain rfl := Option.some.inj (hentry.symm.trans hblock)
  rfl

theorem listsTopLevel_missingAsGreatest (w : Workspace) :
    w.ListsTopLevel (sortKey missingAsGreatest) := by
  refine ⟨fun id => mem_topLevelIds_iff, w.nodup_topLevelIds, ?_⟩
  rw [topLevelIds, List.pairwise_map]
  refine w.pairwise_topLevelPositions.imp_of_mem fun hp hq hpq b b' hb hb' => ?_
  rw [eq_positionOf hp hb, eq_positionOf hq hb'] at hpq
  exact sortKey_lt_iff_precedes.2 hpq

theorem pairwise_or {r : String → String → Prop} {ids : List String} (h : ids.Pairwise r)
    {id id' : String} (hid : id ∈ ids) (hid' : id' ∈ ids) (hne : id ≠ id') :
    r id id' ∨ r id' id := by
  have hsymm : Std.Symm fun id id' => r id id' ∨ r id' id := ⟨fun _ _ => Or.symm⟩
  have hpairs : ids.Pairwise fun id id' => r id id' ∨ r id' id := h.imp .inl
  exact hpairs.forall hid hid' hne

/-- The top-level blocks are listed by `y`, then by `x`, then by the bytes of their ids, where a
missing coordinate counts as the greatest one. So missing coordinates come last unless a block
without one meets a block with the greatest one there. -/
theorem topLevelIds_ordered (w : Workspace) :
    w.ListsTopLevel (sortKey missingAsGreatest) ∧
      (w.ListsTopLevel (sortKey missingLast) ↔ ∀ id b id' b',
        w.block? id = some b → w.block? id' = some b' → b.topLevel = true → b'.topLevel = true →
          ¬Overtakes id b id' b') := by
  have hlists := w.listsTopLevel_missingAsGreatest
  refine ⟨hlists, fun hlast id b id' b' hb hb' htop htop' hover => ?_, fun hnone => ?_⟩
  · have hlt := hover.sortKey_lt
    have hne : id ≠ id' := by
      rintro rfl
      obtain rfl := Option.some.inj (hb.symm.trans hb')
      exact not_sortKey_lt hlt hlt
    -- one of the two is listed first, and the keys of both kinds increase from it to the other
    rcases pairwise_or (hlists.increasing.and hlast.increasing)
        (mem_topLevelIds_iff.2 ⟨b, hb, htop⟩) (mem_topLevelIds_iff.2 ⟨b', hb', htop'⟩) hne with
      ⟨_, hfirst⟩ | ⟨hsecond, _⟩
    · exact (sortKey_missingLast_lt_iff hlt).1 (hfirst b b' hb hb') hover
    · exact not_sortKey_lt hlt (hsecond b' b hb' hb)
  · refine ⟨hlists.mem_iff, hlists.nodup, hlists.increasing.imp_of_mem ?_⟩
    intro id id' hid hid' hlt b b' hb hb'
    obtain ⟨c, hc, htop⟩ := mem_topLevelIds_iff.1 hid
    obtain ⟨c', hc', htop'⟩ := mem_topLevelIds_iff.1 hid'
    obtain rfl := Option.some.inj (hb.symm.trans hc)
    obtain rfl := Option.some.inj (hb'.symm.trans hc')
    exact (sortKey_missingLast_lt_iff (hlt b b' hb hb')).2 (hnone id b id' b' hb hb' htop htop')

/-- Two blocks of one column: the first one has no row, the second one stands in the last row that
there is. -/
def lastRow : Workspace :=
  (empty.insert "a" { Block.new "observer_tick" with topLevel := true, x := some 0 }).insert "b"
    ((Block.new "observer_tick").atTopLevel 0 Int64.maxValue)

theorem not_listsTopLevel_lastRow : ¬lastRow.ListsTopLevel (sortKey missingLast) := by
  intro hlists
  have hids : lastRow.topLevelIds = ["a", "b"] := by decide +kernel
  have hincreasing := hlists.increasing
  rw [hids, List.pairwise_pair] at hincreasing
  have hlt := hincreasing _ _ rfl rfl
  have hover : Overtakes "a" { Block.new "observer_tick" with topLevel := true, x := some 0 } "b"
      ((Block.new "observer_tick").atTopLevel 0 Int64.maxValue) :=
    .inl ⟨rfl, rfl, Prod.Lex.toLex_lt_toLex.2 (.inr ⟨rfl, Text.before_iff_bytes.1 (by decide)⟩)⟩
  exact (sortKey_missingLast_lt_iff hover.sortKey_lt).1 hlt hover

end AgentBlocks.Workspace
