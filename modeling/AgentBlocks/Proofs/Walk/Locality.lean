import AgentBlocks.Proofs.Walk.Soundness

/-!
Walks depend on the trail only through the blocks that they can reach. A chain that has been walked
once can be walked from every trail that is free of its blocks, so the order of chains decides
whether all of them can be walked only where an expression of one is a statement of another.
-/
namespace AgentBlocks

namespace Trail

variable {reached : Role → String → Prop} {t t' : Trail}

/-- The trail after more statements have been placed. -/
def extend (t : Trail) (ids : List String) : Trail := ⟨ids ++ t.placed, t.pending⟩

/-- The trails have the same expressions being rendered, and of the reached blocks the same are
placed. -/
structure Agree (reached : Role → String → Prop) (t t' : Trail) : Prop where
  pending : t'.pending = t.pending
  placed : ∀ {role id}, reached role id → (id ∈ t'.placed ↔ id ∈ t.placed)

theorem extend_extend (t : Trail) (ids ids' : List String) :
    (t.extend ids).extend ids' = t.extend (ids' ++ ids) := by
  simp [extend]

theorem Agree.extend (h : Agree reached t t') (ids : List String) :
    Agree reached (t.extend ids) (t'.extend ids) :=
  ⟨h.pending, fun hid => by simp only [Trail.extend, List.mem_append, h.placed hid]⟩

theorem Agree.enter (h : Agree reached t t') (id : String) :
    Agree reached (t.enter id) (t'.enter id) :=
  ⟨congrArg (id :: ·) h.pending, h.placed⟩

theorem Agree.holds (h : Agree reached t t') {role : Role} {id : String} (hid : reached role id) :
    t'.holds id = t.holds id := by
  rw [Bool.eq_iff_iff, holds_iff, holds_iff, h.pending, h.placed hid]

end Trail

namespace Walk

variable {α β : Type} {reached : Role → String → Prop}

/-- From trails that agree on the reached blocks the walk has the same result and places the same
statements, which are reached ones. -/
def Local (reached : Role → String → Prop) (w : Walk α) : Prop :=
  ∀ t t', t.Agree reached t' → (w t = none ∧ w t' = none) ∨
    ∃ r ids, w t = some (r, t.extend ids) ∧ w t' = some (r, t'.extend ids) ∧
      ∀ id ∈ ids, reached .chain id

theorem local_result (r : Except GenerateError α) : (result r).Local reached :=
  fun _ _ _ => .inr ⟨r, [], rfl, rfl, nofun⟩

theorem local_pure (a : α) : (pure a : Walk α).Local reached := local_result _

theorem local_bind {w : Walk α} {next : α → Walk β} (hw : w.Local reached)
    (hnext : ∀ a, (next a).Local reached) : (w >>= next).Local reached := by
  intro t t' h
  change (w.andThen next t = none ∧ w.andThen next t' = none) ∨ ∃ r ids,
    w.andThen next t = some (r, t.extend ids) ∧ w.andThen next t' = some (r, t'.extend ids) ∧ _
  unfold andThen
  rcases hw t t' h with ⟨hnone, hnone'⟩ | ⟨r, ids, hsome, hsome', hids⟩
  · rw [hnone, hnone']
    exact .inl ⟨rfl, rfl⟩
  · rw [hsome, hsome']
    cases r with
    | error e => exact .inr ⟨.error e, ids, rfl, rfl, hids⟩
    | ok a =>
        rcases hnext a _ _ (h.extend ids) with hnone | ⟨r, ids', hrest, hrest', hids'⟩
        · exact .inl hnone
        · refine .inr ⟨r, ids' ++ ids, ?_, ?_, ?_⟩
          · rw [← t.extend_extend]
            exact hrest
          · rw [← t'.extend_extend]
            exact hrest'
          · intro id hid
            exact (List.mem_append.1 hid).elim (hids' id) (hids id)

theorem local_attempt {w : Walk α} (hw : w.Local reached) : w.attempt.Local reached := by
  intro t t' h
  unfold attempt
  rcases hw t t' h with ⟨hnone, hnone'⟩ | ⟨r, ids, hsome, hsome', hids⟩
  · rw [hnone, hnone']
    exact .inl ⟨rfl, rfl⟩
  · rw [hsome, hsome']
    exact .inr ⟨.ok r, ids, rfl, rfl, hids⟩

theorem local_checkFree {role : Role} {id : String} (hid : reached role id) :
    (checkFree id).Local reached := by
  intro t t' h
  unfold checkFree
  rw [h.holds hid]
  cases t.holds id with
  | true => exact .inr ⟨.error (.cyclicGraph id), [], rfl, rfl, nofun⟩
  | false => exact .inr ⟨.ok (), [], rfl, rfl, nofun⟩

theorem local_place {id : String} (hid : reached .chain id) : (place id).Local reached := by
  refine local_bind (local_checkFree hid) fun _ t t' _ => .inr ⟨.ok (), [id], rfl, rfl, ?_⟩
  intro id' hid'
  rwa [List.mem_singleton.1 hid']

theorem local_inside (id : String) {w : Walk α} (hw : w.Local reached) :
    (w.inside id).Local reached := by
  intro t t' h
  unfold inside
  rcases hw _ _ (h.enter id) with ⟨hnone, hnone'⟩ | ⟨r, ids, hsome, hsome', hids⟩
  · rw [hnone, hnone']
    exact .inl ⟨rfl, rfl⟩
  · rw [hsome, hsome']
    exact .inr ⟨r, ids, rfl, rfl, hids⟩

end Walk

namespace Surroundings

open Walk

variable (s : Surroundings)

/-- Blocks in roles that are closed under the references that they follow. -/
def Closed (reached : Role → String → Prop) : Prop :=
  ∀ ⦃role id link child⦄, reached role id → s.Edge role id link child → reached link.role child

/-- What is reached from a block that is walked as a statement. -/
def Reached (head : String) (role : Role) (id : String) : Prop :=
  ∃ steps, s.Route .chain head steps role id

variable {s} {reached : Role → String → Prop} {t t' : Trail}

theorem Route.snoc {role role' : Role} {id id' child : String} {steps : List (Link × String)}
    {link : Link} (h : s.Route role id steps role' id') (hedge : s.Edge role' id' link child) :
    s.Route role id (steps ++ [(link, child)]) link.role child := by
  induction h with
  | stop role id => exact .step hedge (.stop _ _)
  | step hfirst _ ih => exact .step hfirst (ih hedge)

theorem closed_reached (head : String) : s.Closed (s.Reached head) := by
  rintro role id link child ⟨steps, hroute⟩ hedge
  exact ⟨_, hroute.snoc hedge⟩

theorem reached_self (head : String) : s.Reached head .chain head := ⟨[], .stop .chain head⟩

theorem local_runRule {b : Block} {type : BlockType} {value : String → Walk (String × Precedence)}
    {chain : String → Walk String} (hvalue : ∀ id, reached .value id → (value id).Local reached)
    (hchain : ∀ id, reached .chain id → (chain id).Local reached) {rule : Rule}
    (hasks : ∀ link child, rule.Asks link → b.target? link = some child →
      reached link.role child) :
    (s.runRule b type value chain rule).Local reached := by
  induction rule with
  | done r => exact local_result r
  | value slot bound next ih =>
      have hrest : ∀ answer, (s.runRule b type value chain (next answer)).Local reached :=
        fun answer => ih answer fun link child h => hasks link child (.afterValue answer h)
      unfold runRule
      split
      · exact hrest _
      · rename_i child hslot
        have hchild := hvalue child (hasks (.input slot) child .value hslot)
        exact local_bind (local_attempt hchild) fun _ => hrest _
  | statements slot next ih =>
      have hrest : ∀ answer, (s.runRule b type value chain (next answer)).Local reached :=
        fun answer => ih answer fun link child h => hasks link child (.afterBody answer h)
      unfold runRule
      split
      · exact hrest _
      · rename_i head hslot
        have hhead := hchain head (hasks (.body slot) head .body hslot)
        exact local_bind (local_attempt hhead) fun _ => hrest _

/-- Rendering the reached blocks is local. -/
def RendersLocally (s : Surroundings) (reached : Role → String → Prop)
    (render : Block → BlockType → Walk Phrase) : Prop :=
  ∀ role id b type, reached role id → s.lookup id = .ok (b, type) → (render b type).Local reached

theorem local_lookup {α : Type} {id : String} {next : Block × BlockType → Walk α}
    (hnext : ∀ b type, s.lookup id = .ok (b, type) → (next (b, type)).Local reached) :
    (result (s.lookup id) >>= next).Local reached := by
  cases hlookup : s.lookup id with
  | error e => exact local_result (.error e)
  | ok found => exact hnext found.1 found.2 hlookup

section Render

variable {render : Block → BlockType → Walk Phrase} (hrender : s.RendersLocally reached render)
include hrender

theorem local_walkValue {id : String} (hid : reached .value id) :
    (s.walkValue render id).Local reached := by
  refine local_bind (local_checkFree hid) fun _ => local_lookup fun b type hlookup => ?_
  have hinside := local_inside id (hrender .value id b type hid hlookup)
  exact local_bind hinside fun phrase => local_pure (phrase.code, phrase.precedence)

/-- The walk along a chain: each block that is walked is known, so the next one is reached. -/
theorem local_walkBlocks (hclosed : s.Closed reached) (n : Nat) {id : String}
    (hid : reached .chain id) :
    (s.walkBlocks render (s.workspace.follow n id)).Local reached := by
  induction n generalizing id with
  | zero =>
      refine local_bind (local_place hid) fun _ => local_lookup fun b type hlookup => ?_
      refine local_bind (hrender .chain id b type hid hlookup) fun phrase => ?_
      exact local_bind (local_pure []) fun codes => local_pure (consText phrase.code codes)
  | succ n ih =>
      refine local_bind (local_place hid) fun _ => local_lookup fun b type hlookup => ?_
      refine local_bind (hrender .chain id b type hid hlookup) fun phrase => ?_
      refine local_bind ?_ fun codes => local_pure (consText phrase.code codes)
      rw [(s.lookup_eq_ok.1 hlookup).1, Option.bind_some]
      cases hnext : b.next with
      | none => exact local_pure []
      | some next =>
          have htarget : b.target? .next = some next := hnext
          exact ih (hclosed hid ⟨b, type, hlookup, htarget, .inl ⟨rfl, rfl⟩⟩)

theorem local_walkChain (hclosed : s.Closed reached) {head : String}
    (hhead : reached .chain head) : (s.walkChain render head).Local reached :=
  local_bind (local_walkBlocks hrender hclosed _ hhead) fun codes =>
    local_pure ("\n".intercalate codes)

end Render

theorem rendersLocally_render (hclosed : s.Closed reached) (depth : Nat) :
    s.RendersLocally reached (s.render depth) := by
  induction depth with
  | zero => exact fun _ _ _ _ _ _ _ _ _ => .inl ⟨rfl, rfl⟩
  | succ depth ih =>
      intro role id b type hid hlookup
      refine local_runRule (fun _ h => local_walkValue ih h)
        (fun _ h => local_walkChain ih hclosed h) fun link child hasks htarget => ?_
      exact hclosed hid ⟨b, type, hlookup, htarget, .inr hasks⟩

/-- A chain that can be walked from every trail that is free of the blocks reached from its head,
with the same text and the same statements placed each time. -/
def Walkable (s : Surroundings) (depth : Nat) (head : String) : Prop :=
  ∃ code ids, (∀ id ∈ ids, s.Reached head .chain id) ∧ ∀ t : Trail, t.pending = [] →
    (∀ role id, s.Reached head role id → id ∉ t.placed) →
      s.walkChain (s.render depth) head t = some (.ok code, t.extend ids)

/-- No statement reached from the first block is reached from the second one in any role. -/
def Disjoint (s : Surroundings) (head₁ head₂ : String) : Prop :=
  ∀ role id, s.Reached head₁ .chain id → ¬s.Reached head₂ role id

theorem walkable_of_walkChain (hsteady : s.catalog.Steady) {depth : Nat} {head code : String}
    (hpending : t.pending = [])
    (h : s.walkChain (s.render depth) head t = some (.ok code, t')) :
    s.Walkable depth head := by
  have hclosed : s.Closed (s.Reached head) := closed_reached head
  have hlocal := local_walkChain (rendersLocally_render hclosed depth) hclosed (reached_self head)
  have hexplored := explored_walkChain (s.keeps_render depth) hsteady
    (explores_render hsteady depth) h
  have hfree : ∀ {role id}, s.Reached head role id → id ∉ t.placed := by
    rintro role id ⟨steps, hroute⟩ hplaced
    have hheld := Trail.holds_iff.2 (.inr hplaced)
    rw [hexplored.fresh hroute] at hheld
    cases hheld
  have hwalk : ∀ t₁ : Trail, t.Agree (s.Reached head) t₁ → ∃ ids,
      s.walkChain (s.render depth) head t₁ = some (.ok code, t₁.extend ids) ∧
        t' = t.extend ids ∧ ∀ id ∈ ids, s.Reached head .chain id := by
    intro t₁ hagree
    rcases hlocal t t₁ hagree with ⟨hnone, -⟩ | ⟨r, ids, hsome, hsome', hids⟩
    · rw [hnone] at h
      cases h
    · rw [hsome] at h
      cases h
      exact ⟨ids, hsome', rfl, hids⟩
  obtain ⟨ids, -, rfl, hids⟩ := hwalk t ⟨rfl, fun _ => .rfl⟩
  refine ⟨code, ids, hids, fun t₁ hpending₁ hfree₁ => ?_⟩
  have hagree : t.Agree (s.Reached head) t₁ :=
    ⟨hpending₁.trans hpending.symm, fun hid => iff_of_false (hfree₁ _ _ hid) (hfree hid)⟩
  obtain ⟨ids', hwalk', hsame, -⟩ := hwalk t₁ hagree
  -- the same statements are placed, since the trail before is the same
  have hids' : ids = ids' := List.append_cancel_right (congrArg Trail.placed hsame)
  rw [hwalk', hids']

theorem walkable_of_walkHeads (hsteady : s.catalog.Steady) {depth : Nat} {heads codes : List String}
    (hpending : t.pending = [])
    (h : s.walkHeads depth heads t = some (.ok codes, t')) :
    ∀ head ∈ heads, s.Walkable depth head := by
  induction heads generalizing t t' codes with
  | nil => exact nofun
  | cons head rest ih =>
      obtain ⟨code, t₁, hhead, hrest⟩ := bind_eq_ok.1 h
      obtain ⟨codes', t₂, hcodes, -⟩ := bind_eq_ok.1 hrest
      have hgrows := keeps_walkChain (s.keeps_render depth) head _ _ _ hhead
      refine List.forall_mem_cons.2 ⟨walkable_of_walkChain hsteady hpending hhead, ?_⟩
      exact ih (hgrows.pending.trans hpending) hcodes

/-- Chains that can be walked can be walked one after the other when the statements of none are
reached from a later one. -/
theorem walkHeads_eq_ok {depth : Nat} {heads : List String}
    (hwalkable : ∀ head ∈ heads, s.Walkable depth head) (hdisjoint : heads.Pairwise s.Disjoint)
    (hpending : t.pending = [])
    (hfree : ∀ head ∈ heads, ∀ role id, s.Reached head role id → id ∉ t.placed) :
    ∃ codes t', s.walkHeads depth heads t = some (.ok codes, t') := by
  induction heads generalizing t with
  | nil => exact ⟨[], t, rfl⟩
  | cons head rest ih =>
      obtain ⟨hhead, hrest⟩ := List.forall_mem_cons.1 hwalkable
      obtain ⟨hapart, hdisjoint⟩ := List.pairwise_cons.1 hdisjoint
      obtain ⟨hfreeHead, hfreeRest⟩ := List.forall_mem_cons.1 hfree
      obtain ⟨code, ids, hids, hwalk⟩ := hhead
      have hfree' : ∀ head' ∈ rest, ∀ role id, s.Reached head' role id →
          id ∉ (t.extend ids).placed := by
        intro head' hhead' role id hreached hplaced
        rcases List.mem_append.1 hplaced with hplaced | hplaced
        · exact hapart head' hhead' role id (hids id hplaced) hreached
        · exact hfreeRest head' hhead' role id hreached hplaced
      obtain ⟨codes, t', hcodes⟩ := ih (t := t.extend ids) hrest hdisjoint hpending hfree'
      refine ⟨consText code codes, t', bind_eq_ok.2 ⟨code, _, hwalk t hpending hfreeHead, ?_⟩⟩
      exact bind_eq_ok.2 ⟨codes, t', hcodes, rfl⟩

theorem Stages.pairwise_disjoint {heads : List String} (h : s.Stages (heads.map (.next, ·)) t t') :
    heads.Pairwise s.Disjoint := by
  induction heads generalizing t with
  | nil => exact .nil
  | cons head rest ih =>
      cases h with
      | cons hfirst hrest =>
          refine List.pairwise_cons.2 ⟨fun head' hhead' role id => ?_, ih hrest⟩
          rintro ⟨steps, hroute⟩ ⟨steps', hroute'⟩
          -- the statement has been placed when the later chain comes to it
          have hheld := Trail.holds_iff.2 (.inr (hfirst.placed hroute))
          rw [hrest.exploredAll.fresh (List.mem_map_of_mem hhead') hroute'] at hheld
          cases hheld

/-- Chains that can be walked in one order can be walked in another one exactly when no statement
of a chain is an expression of a later one. -/
theorem walkHeads_perm (hsteady : s.catalog.Steady) {depth : Nat}
    {heads heads' codes : List String} (hperm : heads.Perm heads')
    (h : s.walkHeads depth heads .start = some (.ok codes, t)) :
    (∃ codes' t', s.walkHeads depth heads' .start = some (.ok codes', t')) ↔
      heads'.Pairwise s.Disjoint := by
  constructor
  · rintro ⟨codes', t', h'⟩
    exact (stages_walkHeads hsteady h').pairwise_disjoint
  · intro hdisjoint
    have hwalkable := walkable_of_walkHeads hsteady rfl h
    exact walkHeads_eq_ok (fun head hhead => hwalkable head (hperm.mem_iff.2 hhead)) hdisjoint rfl
      fun _ _ _ _ _ => List.not_mem_nil

end Surroundings

end AgentBlocks
