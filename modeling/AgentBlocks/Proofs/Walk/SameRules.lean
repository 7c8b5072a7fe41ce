import AgentBlocks.Proofs.Walk.Depth
import AgentBlocks.Proofs.Walk.Route

/-!
Graphs with the same wiring and the same rules. Blocks may differ in what their rules do not read:
a walk over the one graph is the walk over the other one, and so are its errors.
-/
namespace AgentBlocks

/-- The blocks are of one type and refer to the same blocks from the same slots. -/
structure Block.WiredLike (b' b : Block) : Prop where
  blockType : b'.blockType = b.blockType
  inputs : b'.inputs = b.inputs
  statements : b'.statements = b.statements
  next : b'.next = b.next

namespace Surroundings

open Walk

/-- The graph has blocks under the same ids, which are wired alike and have the same rules. -/
structure SameRules (s : Surroundings) (w' : Workspace) : Prop where
  size : w'.size = s.workspace.size
  block : ∀ id, Option.Rel (fun b b' => b'.WiredLike b ∧
      ∀ type, s.catalog.type? b.blockType = some type →
        type.rule b' s.registries = type.rule b s.registries)
    (s.workspace.block? id) (w'.block? id)

variable {s : Surroundings} {w' : Workspace}

theorem SameRules.next (hw : s.SameRules w') (id : String) :
    (w'.block? id).bind (·.next) = (s.workspace.block? id).bind (·.next) := by
  have hblock := hw.block id
  generalize w'.block? id = found' at hblock
  generalize s.workspace.block? id = found at hblock
  cases hblock with
  | some h => exact h.1.next
  | none => rfl

theorem SameRules.chainIds (hw : s.SameRules w') (head : String) :
    w'.chainIds head = s.workspace.chainIds head := by
  have hfollow : ∀ n id, w'.follow n id = s.workspace.follow n id := by
    intro n
    induction n with
    | zero => exact fun _ => rfl
    | succ n ih =>
        intro id
        rw [Workspace.follow, Workspace.follow, hw.next]
        cases (s.workspace.block? id).bind (·.next) with
        | none => rfl
        | some next => exact congrArg (id :: ·) (ih next)
  rw [Workspace.chainIds, Workspace.chainIds, hw.size, hfollow]

/-- The two blocks stand under one id, and have one type. -/
def Corresponding (s : Surroundings) (w' : Workspace) (b b' : Block) (type : BlockType) : Prop :=
  ∃ id, s.lookup id = .ok (b, type) ∧ { s with workspace := w' }.lookup id = .ok (b', type)

/-- What stands under an id has the same type in both graphs, or is the same error. -/
theorem SameRules.lookup (hw : s.SameRules w') (id : String) :
    (∃ e, s.lookup id = .error e ∧ { s with workspace := w' }.lookup id = .error e) ∨
      ∃ b b' type, s.lookup id = .ok (b, type) ∧
        { s with workspace := w' }.lookup id = .ok (b', type) := by
  have hblock := hw.block id
  unfold Surroundings.lookup
  generalize w'.block? id = found' at hblock
  generalize s.workspace.block? id = found at hblock
  cases hblock with
  | none => exact .inl ⟨.missingBlock id, rfl, rfl⟩
  | @some b b' h =>
      simp only [h.1.blockType]
      cases s.catalog.type? b.blockType with
      | none => exact .inl ⟨_, rfl, rfl⟩
      | some type => exact .inr ⟨b, b', type, rfl, rfl⟩

theorem SameRules.of_corresponding (hw : s.SameRules w') {b b' : Block} {type : BlockType}
    (h : s.Corresponding w' b b' type) :
    b'.WiredLike b ∧ type.rule b' s.registries = type.rule b s.registries := by
  obtain ⟨id, hlookup, hlookup'⟩ := h
  obtain ⟨hb, htype⟩ := s.lookup_eq_ok.1 hlookup
  have hb' := ((lookup_eq_ok _).1 hlookup').1
  have hblock := hw.block id
  rw [hb, show w'.block? id = some b' from hb'] at hblock
  cases hblock with
  | some h => exact ⟨h.1, h.2 type htype⟩

theorem runRule_of_wiredLike {b b' : Block} (hlike : b'.WiredLike b) (type : BlockType)
    (value : String → Walk (String × Precedence)) (chain : String → Walk String) (rule : Rule) :
    { s with workspace := w' }.runRule b' type value chain rule =
      s.runRule b type value chain rule := by
  induction rule with
  | done r => rfl
  | value slot bound next ih =>
      unfold runRule
      rw [hlike.inputs]
      simp only [ih]
  | statements slot next ih =>
      unfold runRule
      rw [hlike.statements]
      simp only [ih]

/-- Two ways of rendering are the same for corresponding blocks. -/
def RendersSame (s : Surroundings) (w' : Workspace)
    (render render' : Block → BlockType → Walk Phrase) : Prop :=
  ∀ b b' type, s.Corresponding w' b b' type → render' b' type = render b type

section Render

variable {render render' : Block → BlockType → Walk Phrase} (hw : s.SameRules w')
  (hrender : s.RendersSame w' render render')
include hw hrender

theorem lookup_bind_of_sameRules {α : Type} {id : String} {next next' : Block × BlockType → Walk α}
    (hnext : ∀ b b' type, render' b' type = render b type → next' (b', type) = next (b, type)) :
    (result ({ s with workspace := w' }.lookup id) >>= next') =
      (result (s.lookup id) >>= next) := by
  rcases hw.lookup id with ⟨e, h, h'⟩ | ⟨b, b', type, h, h'⟩
  · rw [h, h']
    rfl
  · rw [h, h']
    exact hnext b b' type (hrender b b' type ⟨id, h, h'⟩)

theorem walkValue_of_sameRules (id : String) :
    { s with workspace := w' }.walkValue render' id = s.walkValue render id := by
  refine congrArg (checkFree id >>= ·) (funext fun _ => ?_)
  refine lookup_bind_of_sameRules hw hrender fun b b' type hsame => ?_
  simp only [hsame]

theorem walkBlocks_of_sameRules (ids : List String) :
    { s with workspace := w' }.walkBlocks render' ids = s.walkBlocks render ids := by
  induction ids with
  | nil => rfl
  | cons id rest ih =>
      refine congrArg (place id >>= ·) (funext fun _ => ?_)
      refine lookup_bind_of_sameRules hw hrender fun b b' type hsame => ?_
      simp only [hsame, ih]

theorem walkChain_of_sameRules (head : String) :
    { s with workspace := w' }.walkChain render' head = s.walkChain render head := by
  rw [walkChain, walkChain, hw.chainIds, walkBlocks_of_sameRules hw hrender]

end Render

theorem rendersSame_render (hw : s.SameRules w') (depth : Nat) :
    s.RendersSame w' (s.render depth) ({ s with workspace := w' }.render depth) := by
  induction depth with
  | zero => exact fun _ _ _ _ => rfl
  | succ depth ih =>
      intro b b' type hcorresponding
      obtain ⟨hlike, hrule⟩ := hw.of_corresponding hcorresponding
      rw [render, render, hrule, funext (walkValue_of_sameRules hw ih),
        funext (walkChain_of_sameRules hw ih), runRule_of_wiredLike hlike]

theorem walkHeads_of_sameRules (hw : s.SameRules w') (depth : Nat) (heads : List String) :
    { s with workspace := w' }.walkHeads depth heads = s.walkHeads depth heads := by
  induction heads with
  | nil => rfl
  | cons head rest ih =>
      rw [walkHeads, walkHeads, walkChain_of_sameRules hw (rendersSame_render hw depth), ih]

end Surroundings

/-- Graphs with the same rules and the same top-level blocks have the same program or the same
error. -/
theorem generate_of_sameRules {c : Catalog} {w w' : Workspace} {r : Registries}
    {options : GenerateOptions}
    (hw : Surroundings.SameRules ⟨c, w, r, options.indentWidth⟩ w')
    (hheads : w'.topLevelIds = w.topLevelIds) :
    generate c options w' r = generate c options w r := by
  have hwalk := Surroundings.walkHeads_of_sameRules hw w.size w.topLevelIds
  have hsize : w'.size = w.size := hw.size
  unfold generate generateWithin
  rw [hsize, hheads]
  simp only [hwalk]

end AgentBlocks
