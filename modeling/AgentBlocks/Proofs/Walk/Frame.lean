import AgentBlocks.Program.Walk
import Mathlib.Data.List.Basic

/-!
What every walk leaves alone: the expressions that were being rendered are those that were, and
what has been placed stays placed, whether the walk fails or not.
-/
namespace AgentBlocks

/-- The trail `t'` comes from `t` by placing statements. -/
structure Trail.Grows (t t' : Trail) : Prop where
  pending : t'.pending = t.pending
  placed : t.placed ⊆ t'.placed

namespace Trail

theorem holds_iff {t : Trail} {id : String} :
    t.holds id = true ↔ id ∈ t.pending ∨ id ∈ t.placed := by
  simp [holds]

theorem Grows.refl (t : Trail) : t.Grows t := ⟨rfl, fun _ h => h⟩

theorem Grows.trans {t₁ t₂ t₃ : Trail} (h : t₁.Grows t₂) (h' : t₂.Grows t₃) : t₁.Grows t₃ :=
  ⟨h'.pending.trans h.pending, List.Subset.trans h.placed h'.placed⟩

theorem grows_place (t : Trail) (id : String) : t.Grows (t.place id) :=
  ⟨rfl, List.subset_cons_self id t.placed⟩

/-- An expression leaves behind what it found, with more placed. -/
theorem Grows.leave {t t' : Trail} {id : String} (h : (t.enter id).Grows t') :
    t.Grows t'.leave := by
  refine ⟨?_, h.placed⟩
  unfold Trail.leave
  rw [h.pending]
  rfl

theorem Grows.holds {t t' : Trail} (h : t.Grows t') {id : String} (hid : t.holds id = true) :
    t'.holds id = true := by
  rw [holds_iff] at hid ⊢
  rw [h.pending]
  exact hid.imp_right fun hplaced => h.placed hplaced

theorem Grows.free {t t' : Trail} (h : t.Grows t') {id : String} (hid : t'.holds id = false) :
    t.holds id = false := by
  cases hheld : t.holds id with
  | false => rfl
  | true =>
      rw [h.holds hheld] at hid
      cases hid

end Trail

namespace Walk

variable {α β : Type} {t t' : Trail}

theorem bind_eq_some {w : Walk α} {next : α → Walk β} {result : Except GenerateError β} :
    (w >>= next) t = some (result, t') ↔
      (∃ e, w t = some (.error e, t') ∧ result = .error e) ∨
        ∃ a t₁, w t = some (.ok a, t₁) ∧ next a t₁ = some (result, t') := by
  change w.andThen next t = _ ↔ _
  unfold andThen
  cases hw : w t with
  | none => simp
  | some out =>
      obtain ⟨outcome, t₁⟩ := out
      cases outcome with
      | error e => simp [and_comm, eq_comm]
      | ok a => simp [and_assoc]

/-- What is done with the result alone leaves errors and the trail as they are. -/
theorem bind_pure_eq_some {w : Walk α} {f : α → β} {result : Except GenerateError β} :
    (w >>= fun a => pure (f a)) t = some (result, t') ↔
      ∃ outcome, w t = some (outcome, t') ∧ result = outcome.map f := by
  rw [bind_eq_some]
  constructor
  · rintro (⟨e, hw, rfl⟩ | ⟨a, t₁, hw, hpure⟩)
    · exact ⟨.error e, hw, rfl⟩
    · cases hpure
      exact ⟨.ok a, hw, rfl⟩
  · rintro ⟨outcome, hw, rfl⟩
    cases outcome with
    | error e => exact .inl ⟨e, hw, rfl⟩
    | ok a => exact .inr ⟨a, t', hw, rfl⟩

theorem bind_eq_ok {w : Walk α} {next : α → Walk β} {b : β} :
    (w >>= next) t = some (.ok b, t') ↔
      ∃ a t₁, w t = some (.ok a, t₁) ∧ next a t₁ = some (.ok b, t') := by
  rw [bind_eq_some]
  constructor
  · rintro (⟨e, -, he⟩ | h)
    · cases he
    · exact h
  · exact .inr

/-- A walk that always ends well leaves the result to what comes after it. -/
theorem bind_of_ok {w : Walk α} {next : α → Walk β} {r : Except GenerateError β}
    (hok : ∀ {outcome t₁}, w t = some (outcome, t₁) → ∃ a, outcome = .ok a)
    (h : (w >>= next) t = some (r, t')) :
    ∃ a t₁, w t = some (.ok a, t₁) ∧ next a t₁ = some (r, t') := by
  rcases bind_eq_some.1 h with ⟨e, hfail, -⟩ | hrest
  · obtain ⟨a, ha⟩ := hok hfail
    cases ha
  · exact hrest

theorem result_eq_some {r r' : Except GenerateError α} :
    result r t = some (r', t') ↔ r = r' ∧ t = t' := by
  simp [result]

theorem attempt_eq_some {w : Walk α} {r : Except GenerateError (Except GenerateError α)} :
    w.attempt t = some (r, t') ↔ ∃ outcome, w t = some (outcome, t') ∧ r = .ok outcome := by
  simp only [attempt, Option.map_eq_some_iff, Prod.exists, Prod.mk.injEq]
  constructor
  · rintro ⟨outcome, t₁, h, rfl, rfl⟩
    exact ⟨outcome, h, rfl⟩
  · rintro ⟨outcome, h, rfl⟩
    exact ⟨outcome, t', h, rfl, rfl⟩

theorem checkFree_eq_ok {id : String} {u : Unit} :
    checkFree id t = some (.ok u, t') ↔ t.holds id = false ∧ t' = t := by
  unfold checkFree
  cases t.holds id <;> simp [eq_comm]

theorem place_eq_ok {id : String} {u : Unit} :
    place id t = some (.ok u, t') ↔ t.holds id = false ∧ t' = t.place id := by
  constructor
  · intro h
    obtain ⟨⟨⟩, t₁, hfree, hplaced⟩ := bind_eq_ok.1 h
    obtain ⟨hid, rfl⟩ := checkFree_eq_ok.1 hfree
    cases hplaced
    exact ⟨hid, rfl⟩
  · rintro ⟨hid, rfl⟩
    exact bind_eq_ok.2 ⟨(), t, checkFree_eq_ok.2 ⟨hid, rfl⟩, rfl⟩

theorem inside_eq_some {id : String} {w : Walk α} {r : Except GenerateError α} :
    w.inside id t = some (r, t') ↔ ∃ t₁, w (t.enter id) = some (r, t₁) ∧ t' = t₁.leave := by
  simp only [inside, Option.map_eq_some_iff, Prod.exists, Prod.mk.injEq]
  constructor
  · rintro ⟨r₁, t₁, h, rfl, rfl⟩
    exact ⟨t₁, h, rfl⟩
  · rintro ⟨t₁, h, rfl⟩
    exact ⟨r, t₁, h, rfl, rfl⟩

/-- The walk only places statements, also when it fails. -/
def Keeps (w : Walk α) : Prop := ∀ t result t', w t = some (result, t') → t.Grows t'

theorem keeps_result (r : Except GenerateError α) : (result r).Keeps := by
  intro t r' t' h
  obtain ⟨-, rfl⟩ := result_eq_some.1 h
  exact .refl _

theorem keeps_pure (a : α) : (pure a : Walk α).Keeps := keeps_result _

theorem keeps_bind {w : Walk α} {next : α → Walk β} (hw : w.Keeps) (hnext : ∀ a, (next a).Keeps) :
    (w >>= next).Keeps := by
  intro t r t' h
  rcases bind_eq_some.1 h with ⟨e, hfirst, -⟩ | ⟨a, t₁, hfirst, hrest⟩
  · exact hw _ _ _ hfirst
  · exact (hw _ _ _ hfirst).trans (hnext a _ _ _ hrest)

theorem keeps_attempt {w : Walk α} (hw : w.Keeps) : w.attempt.Keeps := by
  intro t r t' h
  obtain ⟨outcome, hfirst, -⟩ := attempt_eq_some.1 h
  exact hw _ _ _ hfirst

theorem keeps_checkFree (id : String) : (checkFree id).Keeps := by
  intro t r t' h
  unfold checkFree at h
  split at h <;> cases h <;> exact .refl _

theorem keeps_place (id : String) : (place id).Keeps := by
  refine keeps_bind (keeps_checkFree id) fun _ => ?_
  intro t r t' h
  cases h
  exact t.grows_place id

theorem keeps_inside (id : String) {w : Walk α} (hw : w.Keeps) : (w.inside id).Keeps := by
  intro t r t' h
  obtain ⟨t₁, hinner, rfl⟩ := inside_eq_some.1 h
  exact (hw _ _ _ hinner).leave

end Walk

namespace Surroundings

open Walk

variable (s : Surroundings)

theorem keeps_runRule {b : Block} {type : BlockType} {value : String → Walk (String × Precedence)}
    {chain : String → Walk String} (hvalue : ∀ id, (value id).Keeps)
    (hchain : ∀ id, (chain id).Keeps) (rule : Rule) :
    (s.runRule b type value chain rule).Keeps := by
  induction rule with
  | done r => exact keeps_result r
  | value slot bound next ih =>
      unfold runRule
      split
      · exact ih _
      · exact keeps_bind (keeps_attempt (hvalue _)) fun _ => ih _
  | statements slot next ih =>
      unfold runRule
      split
      · exact ih _
      · exact keeps_bind (keeps_attempt (hchain _)) fun _ => ih _

section Render

variable {s} {render : Block → BlockType → Walk Phrase} (hrender : ∀ b type, (render b type).Keeps)
include hrender

theorem keeps_walkBlocks (ids : List String) : (s.walkBlocks render ids).Keeps := by
  induction ids with
  | nil => exact keeps_pure _
  | cons id rest ih =>
      refine keeps_bind (keeps_place id) fun _ => keeps_bind (keeps_result _) fun found => ?_
      exact keeps_bind (hrender _ _) fun _ => keeps_bind ih fun _ => keeps_pure _

theorem keeps_walkChain (head : String) : (s.walkChain render head).Keeps :=
  keeps_bind (keeps_walkBlocks hrender _) fun _ => keeps_pure _

theorem keeps_walkValue (id : String) : (s.walkValue render id).Keeps := by
  refine keeps_bind (keeps_checkFree id) fun _ => keeps_bind (keeps_result _) fun found => ?_
  exact keeps_bind (keeps_inside id (hrender _ _)) fun _ => keeps_pure _

end Render

theorem keeps_render (depth : Nat) (b : Block) (type : BlockType) :
    (s.render depth b type).Keeps := by
  induction depth generalizing b type with
  | zero =>
      intro t r t' h
      cases h
  | succ depth ih =>
      exact s.keeps_runRule (keeps_walkValue ih) (keeps_walkChain ih) _

end Surroundings

end AgentBlocks
