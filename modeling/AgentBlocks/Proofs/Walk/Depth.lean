import AgentBlocks.Program.Basic
import AgentBlocks.Proofs.Walk.Frame
import AgentBlocks.Proofs.Workspace.Graph

/-!
The depth of rendering. The blocks that are being rendered are different ones, so a depth of as
many blocks as there are is never used up, whatever the rules and the graph.
-/
namespace AgentBlocks

namespace Walk

variable {α β : Type}

/-- The walk does not go too deep from a trail with the property. -/
def Ends (P : Trail → Prop) (w : Walk α) : Prop := ∀ t, P t → w t ≠ none

theorem attempt_ne_none {w : Walk α} {t : Trail} (hw : w t ≠ none) : w.attempt t ≠ none := by
  intro h
  exact hw (Option.map_eq_none_iff.1 h)

theorem bind_ne_none {w : Walk α} {next : α → Walk β} {t : Trail} (hw : w t ≠ none)
    (hnext : ∀ a t', w t = some (.ok a, t') → next a t' ≠ none) : (w >>= next) t ≠ none := by
  intro h
  change w.andThen next t = none at h
  unfold andThen at h
  split at h
  · rename_i hnone
    exact hw hnone
  · cases h
  · rename_i a t' hok
    exact hnext a t' hok h

theorem result_ne_none (r : Except GenerateError α) (t : Trail) : result r t ≠ none := by
  intro h
  cases h

theorem checkFree_ne_none (id : String) (t : Trail) : checkFree id t ≠ none := by
  unfold checkFree
  cases t.holds id <;> simp

theorem place_ne_none (id : String) (t : Trail) : place id t ≠ none := by
  refine bind_ne_none (checkFree_ne_none id t) fun _ t' _ h => ?_
  cases h

end Walk

namespace Surroundings

open Walk

variable (s : Surroundings)

/-- Some `n` different blocks of the graph are placed or being rendered. -/
def Active (n : Nat) (t : Trail) : Prop :=
  ∃ ids : List String, ids.Nodup ∧ ids.length = n ∧
    ∀ id ∈ ids, t.holds id = true ∧ (s.workspace.block? id).isSome

variable {s} {n : Nat} {t t' : Trail}

theorem Active.le_size (h : s.Active n t) : n ≤ s.workspace.size := by
  obtain ⟨ids, hnodup, rfl, hids⟩ := h
  exact Workspace.length_le_size hnodup fun id hid => (hids id hid).2

theorem Active.grows (h : s.Active n t) (hgrows : t.Grows t') : s.Active n t' := by
  obtain ⟨ids, hnodup, hlength, hids⟩ := h
  exact ⟨ids, hnodup, hlength, fun id hid => ⟨hgrows.holds (hids id hid).1, (hids id hid).2⟩⟩

theorem active_zero (t : Trail) : s.Active 0 t := ⟨[], .nil, rfl, fun _ h => nomatch h⟩

/-- One more block is active on a trail that holds it besides all that was held. -/
theorem Active.add {id : String} (h : s.Active n t) (hfree : t.holds id = false)
    (hid : (s.workspace.block? id).isSome) (hheld : t'.holds id = true)
    (hold : ∀ x, t.holds x = true → t'.holds x = true) : s.Active (n + 1) t' := by
  obtain ⟨ids, hnodup, rfl, hids⟩ := h
  refine ⟨id :: ids, ?_, rfl, ?_⟩
  · rw [List.nodup_cons]
    refine ⟨?_, hnodup⟩
    intro hmem
    rw [(hids id hmem).1] at hfree
    cases hfree
  · intro x hx
    rcases List.mem_cons.1 hx with rfl | hx
    · exact ⟨hheld, hid⟩
    · exact ⟨hold x (hids x hx).1, (hids x hx).2⟩

theorem Active.place {id : String} (h : s.Active n t) (hfree : t.holds id = false)
    (hid : (s.workspace.block? id).isSome) : s.Active (n + 1) (t.place id) :=
  h.add hfree hid (Trail.holds_iff.2 (.inr List.mem_cons_self))
    fun _ hx => (t.grows_place id).holds hx

theorem Active.enter {id : String} (h : s.Active n t) (hfree : t.holds id = false)
    (hid : (s.workspace.block? id).isSome) : s.Active (n + 1) (t.enter id) := by
  refine h.add hfree hid (Trail.holds_iff.2 (.inl List.mem_cons_self)) fun x hx => ?_
  rw [Trail.holds_iff] at hx ⊢
  exact hx.imp_left (List.mem_cons_of_mem id)

theorem isSome_of_lookup {id : String} {found : Block × BlockType} (h : s.lookup id = .ok found) :
    (s.workspace.block? id).isSome := by
  unfold lookup at h
  cases hb : s.workspace.block? id with
  | none =>
      rw [hb] at h
      cases h
  | some b => rfl

theorem ends_runRule {P : Trail → Prop} (hP : ∀ t t', P t → t.Grows t' → P t') {b : Block}
    {type : BlockType} {value : String → Walk (String × Precedence)} {chain : String → Walk String}
    (hvalue : ∀ id, (value id).Keeps ∧ Ends P (value id))
    (hchain : ∀ id, (chain id).Keeps ∧ Ends P (chain id)) (rule : Rule) :
    Ends P (s.runRule b type value chain rule) := by
  induction rule with
  | done r => exact fun t _ => result_ne_none r t
  | value slot bound next ih =>
      unfold runRule
      split
      · exact ih _
      · rename_i child _
        obtain ⟨hkeeps, hends⟩ := hvalue child
        intro t ht
        refine bind_ne_none (attempt_ne_none (hends t ht)) fun a t' hok => ?_
        exact ih _ t' (hP t t' ht (keeps_attempt hkeeps _ _ _ hok))
  | statements slot next ih =>
      unfold runRule
      split
      · exact ih _
      · rename_i head _
        obtain ⟨hkeeps, hends⟩ := hchain head
        intro t ht
        refine bind_ne_none (attempt_ne_none (hends t ht)) fun a t' hok => ?_
        exact ih _ t' (hP t t' ht (keeps_attempt hkeeps _ _ _ hok))

section Render

variable {render : Block → BlockType → Walk Phrase}
  (hrender : ∀ b type, Ends (s.Active (n + 1)) (render b type))

include hrender

theorem ends_walkValue (id : String) : Ends (s.Active n) (s.walkValue render id) := by
  intro t ht
  refine bind_ne_none (checkFree_ne_none id t) fun u t₁ hfree => ?_
  obtain ⟨hid, rfl⟩ := checkFree_eq_ok.1 hfree
  refine bind_ne_none (result_ne_none _ _) fun found t₂ hfound => ?_
  obtain ⟨hlookup, rfl⟩ := result_eq_some.1 hfound
  refine bind_ne_none ?_ fun phrase t₃ _ => result_ne_none _ _
  intro h
  have hactive := ht.enter hid (isSome_of_lookup hlookup)
  exact hrender _ _ _ hactive (Option.map_eq_none_iff.1 h)

variable (hkeeps : ∀ b type, (render b type).Keeps)
include hkeeps

theorem ends_walkBlocks (ids : List String) : Ends (s.Active n) (s.walkBlocks render ids) := by
  induction ids with
  | nil => exact fun t _ => result_ne_none _ t
  | cons id rest ih =>
      intro t ht
      refine bind_ne_none (place_ne_none id t) fun u t₁ hplace => ?_
      obtain ⟨hid, rfl⟩ := place_eq_ok.1 hplace
      refine bind_ne_none (result_ne_none _ _) fun found t₂ hfound => ?_
      obtain ⟨hlookup, rfl⟩ := result_eq_some.1 hfound
      have hactive := ht.place hid (isSome_of_lookup hlookup)
      refine bind_ne_none (hrender _ _ _ hactive) fun phrase t₃ hrendered => ?_
      -- the rest of the chain is walked with the same number of blocks around it
      have hgrows := (t.grows_place id).trans (hkeeps _ _ _ _ _ hrendered)
      exact bind_ne_none (ih _ (ht.grows hgrows)) fun codes t₄ _ => result_ne_none _ _

theorem ends_walkChain (head : String) : Ends (s.Active n) (s.walkChain render head) := by
  intro t ht
  exact bind_ne_none (ends_walkBlocks hrender hkeeps _ t ht) fun _ _ _ => result_ne_none _ _

end Render

variable (s)

/-- A block is rendered when the depth and the blocks around it are more than all blocks. -/
theorem ends_render (depth : Nat) {n : Nat} (hdepth : s.workspace.size < depth + n) (b : Block)
    (type : BlockType) : Ends (s.Active n) (s.render depth b type) := by
  induction depth generalizing n b type with
  | zero =>
      intro t ht
      have hle := ht.le_size
      omega
  | succ depth ih =>
      have hrender : ∀ b type, Ends (s.Active (n + 1)) (s.render depth b type) :=
        fun b type => ih (by omega) b type
      have hkeeps := s.keeps_render depth
      exact ends_runRule (fun _ _ ht hgrows => ht.grows hgrows)
        (fun id => ⟨keeps_walkValue hkeeps id, ends_walkValue hrender id⟩)
        (fun id => ⟨keeps_walkChain hkeeps id, ends_walkChain hrender hkeeps id⟩) _

theorem ends_walkHeads {depth : Nat} (hdepth : s.workspace.size ≤ depth) (heads : List String)
    (t : Trail) : s.walkHeads depth heads t ≠ none := by
  have hrender : ∀ b type, Ends (s.Active (0 + 1)) (s.render depth b type) :=
    s.ends_render _ (by omega)
  induction heads generalizing t with
  | nil => exact result_ne_none _ t
  | cons head rest ih =>
      have hhead := ends_walkChain hrender (s.keeps_render _) head t (active_zero t)
      refine bind_ne_none hhead fun code t₁ _ => ?_
      exact bind_ne_none (ih t₁) fun codes t₂ _ => result_ne_none _ _

end Surroundings

/-- A depth of as many blocks as there are is never used up: the result within it is that of the
walk over all chains. -/
theorem generateWithin_eq_map {depth : Nat} (c : Catalog) (options : GenerateOptions)
    {w : Workspace} (r : Registries) (hdepth : w.size ≤ depth) :
    ∃ outcome t,
      Surroundings.walkHeads ⟨c, w, r, options.indentWidth⟩ depth w.topLevelIds .start =
        some (outcome, t) ∧
      generateWithin depth c options w r = some (outcome.map fun chains => "\n\n".intercalate
        ((if options.includeDeclarations then r.declarations else []) ++ chains)) := by
  have hends :=
    Surroundings.ends_walkHeads ⟨c, w, r, options.indentWidth⟩ hdepth w.topLevelIds .start
  obtain ⟨⟨outcome, t⟩, hwalk⟩ := Option.ne_none_iff_exists'.1 hends
  refine ⟨outcome, t, hwalk, ?_⟩
  simp only [generateWithin, hwalk]
  cases outcome with
  | error e => rfl
  | ok chains => rfl

theorem generate_eq_map (c : Catalog) (options : GenerateOptions) (w : Workspace)
    (r : Registries) :
    ∃ outcome t,
      Surroundings.walkHeads ⟨c, w, r, options.indentWidth⟩ w.size w.topLevelIds .start =
        some (outcome, t) ∧
      generate c options w r = outcome.map fun chains => "\n\n".intercalate
        ((if options.includeDeclarations then r.declarations else []) ++ chains) := by
  obtain ⟨outcome, t, hwalk, heq⟩ := generateWithin_eq_map c options r (Nat.le_refl w.size)
  refine ⟨outcome, t, hwalk, ?_⟩
  rw [generate, heq, Option.getD_some]

end AgentBlocks
