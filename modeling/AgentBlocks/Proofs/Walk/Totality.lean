import AgentBlocks.Proofs.Walk.Soundness
import Mathlib.Data.List.Nodup

/-!
Totality on well-formed graphs: a walk fails only on an unknown block or on one that it holds
already, and on a well-formed graph what it holds is never what it comes to next.
-/
namespace AgentBlocks

namespace Surroundings

open Walk

variable (s : Surroundings)

/-- A well linked graph in which no block is both a statement and an expression. -/
structure WellFormed : Prop extends s.WellLinked where
  apart : ∀ head₁ ∈ s.workspace.topLevelIds, ∀ head₂ ∈ s.workspace.topLevelIds,
    ∀ steps₁ steps₂ id, s.Route .chain head₁ steps₁ .chain id →
      ¬s.Route .chain head₂ steps₂ .value id

/-- All routes over some references lead to known blocks, repeat none, reach every statement once
and no expression as a statement, and stay off what the trail holds. -/
structure Clear (starts : List (Link × String)) (t : Trail) : Prop where
  nodup : starts.Nodup
  known : ∀ {a steps role x}, a ∈ starts → s.Route a.1.role a.2 steps role x →
    ∃ b type, s.lookup x = .ok (b, type)
  simple : ∀ {a steps role x}, a ∈ starts → s.Route a.1.role a.2 steps role x →
    (routeIds a.2 steps).Nodup
  single : ∀ {a₁ a₂ steps₁ steps₂ x}, a₁ ∈ starts → a₂ ∈ starts →
    s.Route a₁.1.role a₁.2 steps₁ .chain x → s.Route a₂.1.role a₂.2 steps₂ .chain x →
    a₁ = a₂ ∧ steps₁ = steps₂
  apart : ∀ {a₁ a₂ steps₁ steps₂ x}, a₁ ∈ starts → a₂ ∈ starts →
    s.Route a₁.1.role a₁.2 steps₁ .chain x → ¬s.Route a₂.1.role a₂.2 steps₂ .value x
  free : ∀ {a steps role x}, a ∈ starts → s.Route a.1.role a.2 steps role x → t.holds x = false

/-- Only statements on routes over the references have been placed. -/
structure PlacedFrom (starts : List (Link × String)) (t t' : Trail) : Prop where
  pending : t'.pending = t.pending
  placed : ∀ {x}, x ∈ t'.placed → x ∈ t.placed ∨
    ∃ a ∈ starts, ∃ steps, s.Route a.1.role a.2 steps .chain x

variable {s} {l m : List (Link × String)} {t t₁ t' : Trail}

theorem PlacedFrom.refl (l : List (Link × String)) (t : Trail) : s.PlacedFrom l t t := ⟨rfl, .inl⟩

theorem PlacedFrom.append (h : s.PlacedFrom l t t₁) (h' : s.PlacedFrom m t₁ t') :
    s.PlacedFrom (l ++ m) t t' := by
  refine ⟨h'.pending.trans h.pending, fun {x} hx => ?_⟩
  rcases h'.placed hx with hx | ⟨a, ha, hroute⟩
  · rcases h.placed hx with hx | ⟨a, ha, hroute⟩
    · exact .inl hx
    · exact .inr ⟨a, List.mem_append_left m ha, hroute⟩
  · exact .inr ⟨a, List.mem_append_right l ha, hroute⟩

theorem Clear.left (h : s.Clear (l ++ m) t) : s.Clear l t := by
  have hmem : ∀ {a}, a ∈ l → a ∈ l ++ m := fun ha => List.mem_append_left m ha
  exact ⟨(List.nodup_append.1 h.nodup).1, fun ha => h.known (hmem ha), fun ha => h.simple (hmem ha),
    fun ha₁ ha₂ => h.single (hmem ha₁) (hmem ha₂), fun ha₁ ha₂ => h.apart (hmem ha₁) (hmem ha₂),
    fun ha => h.free (hmem ha)⟩

/-- What has been placed over the first references is not met over the others. -/
theorem Clear.right (h : s.Clear (l ++ m) t) (hplaced : s.PlacedFrom l t t') : s.Clear m t' := by
  have hmem : ∀ {a}, a ∈ m → a ∈ l ++ m := fun ha => List.mem_append_right l ha
  obtain ⟨-, hnodup, hdisjoint⟩ := List.nodup_append.1 h.nodup
  refine ⟨hnodup, fun ha => h.known (hmem ha), fun ha => h.simple (hmem ha),
    fun ha₁ ha₂ => h.single (hmem ha₁) (hmem ha₂), fun ha₁ ha₂ => h.apart (hmem ha₁) (hmem ha₂), ?_⟩
  intro a steps role x ha hroute
  have hfree := h.free (hmem ha) hroute
  rw [← Bool.not_eq_true, Trail.holds_iff] at hfree ⊢
  rw [hplaced.pending]
  rintro (hx | hx)
  · exact hfree (.inl hx)
  · rcases hplaced.placed hx with hx | ⟨a', ha', steps', hroute'⟩
    · exact hfree (.inr hx)
    · cases role with
      | chain =>
          obtain ⟨rfl, -⟩ := h.single (List.mem_append_left m ha') (hmem ha) hroute' hroute
          exact hdisjoint _ ha' _ ha rfl
      | value => exact h.apart (List.mem_append_left m ha') (hmem ha) hroute' hroute

theorem nodup_edges (b : Block) (role : Role) {rule : Rule} {links : List Link}
    (hvisits : rule.Visits links) (hnodup : links.Nodup) : (b.edges (role.links links)).Nodup := by
  refine List.Nodup.filterMap ?_ ?_
  · intro link link' e he he'
    obtain ⟨child, -, rfl⟩ := Option.map_eq_some_iff.1 he
    obtain ⟨child', -, heq⟩ := Option.map_eq_some_iff.1 he'
    exact (congrArg (·.1) heq).symm
  · cases role with
    | value => exact hnodup
    | chain =>
        rw [Role.links, ← List.concat_eq_append, List.nodup_concat]
        exact ⟨fun hmem => Rule.not_asks_next ((hvisits.asks_iff .next).2 hmem), hnodup⟩

/-- The references of a block are clear when the block is, even while it is held. -/
theorem Clear.edges {link : Link} {id : String} {b : Block} {type : BlockType} {links : List Link}
    (h : s.Clear [(link, id)] t) (hlookup : s.lookup id = .ok (b, type))
    (hvisits : (type.rule b s.registries).Visits links) (hnodup : links.Nodup)
    (hheld : ∀ x, t₁.holds x = true → t.holds x = true ∨ x = id) :
    s.Clear (b.edges (link.role.links links)) t₁ := by
  have hmem : (link, id) ∈ [(link, id)] := List.mem_singleton_self _
  have hedge : ∀ {a}, a ∈ b.edges (link.role.links links) → s.Edge link.role id a.1 a.2 :=
    fun ha => (edge_iff hlookup hvisits).2 ha
  refine ⟨?_, ?_, ?_, ?_, ?_, ?_⟩
  · exact nodup_edges b link.role hvisits hnodup
  · intro a steps role x ha hroute
    exact h.known hmem (.step (hedge ha) hroute)
  · intro a steps role x ha hroute
    exact (List.nodup_cons.1 (h.simple hmem (.step (hedge ha) hroute))).2
  · intro a₁ a₂ steps₁ steps₂ x ha₁ ha₂ h₁ h₂
    obtain ⟨-, heq⟩ := h.single hmem hmem (.step (hedge ha₁) h₁) (.step (hedge ha₂) h₂)
    exact List.cons.inj heq
  · intro a₁ a₂ steps₁ steps₂ x ha₁ ha₂ h₁ h₂
    exact h.apart hmem hmem (.step (hedge ha₁) h₁) (.step (hedge ha₂) h₂)
  · intro a steps role x ha hroute
    have hstep := Route.step (hedge ha) hroute
    have hfree := h.free hmem hstep
    cases hx : t₁.holds x with
    | false => rfl
    | true =>
        rcases hheld x hx with hx | rfl
        · rw [hx] at hfree
          cases hfree
        · -- the route would come back to the block
          exact absurd hroute.end_mem (List.nodup_cons.1 (h.simple hmem hstep)).1

/-- Statements on routes over the references of a block are on routes to it. -/
theorem PlacedFrom.node {link : Link} {id : String} {edges : List (Link × String)}
    (h : s.PlacedFrom edges t₁ t') (hedges : ∀ a ∈ edges, s.Edge link.role id a.1 a.2)
    (hplaced : ∀ x ∈ t₁.placed, x ∈ t.placed ∨ (x = id ∧ link.role = .chain)) {x : String}
    (hx : x ∈ t'.placed) :
    x ∈ t.placed ∨ ∃ a ∈ [(link, id)], ∃ steps, s.Route a.1.role a.2 steps .chain x := by
  have hmem : (link, id) ∈ [(link, id)] := List.mem_singleton_self _
  rcases h.placed hx with hx | ⟨a, ha, steps, hroute⟩
  · rcases hplaced x hx with hx | ⟨rfl, hrole⟩
    · exact .inl hx
    · exact .inr ⟨_, hmem, [], hrole ▸ .stop link.role x⟩
  · exact .inr ⟨_, hmem, a :: steps, .step (hedges a ha) hroute⟩

/-- The walk over a reference ends well and places what it should. -/
def Completes {α : Type} (s : Surroundings) (link : Link) (walk : String → Walk α) : Prop :=
  ∀ {id t outcome t'}, s.Clear [(link, id)] t → walk id t = some (outcome, t') →
    (∃ a, outcome = .ok a) ∧ s.PlacedFrom [(link, id)] t t'

theorem completes_runRule {b : Block} {type : BlockType}
    {value : String → Walk (String × Precedence)} {chain : String → Walk String}
    (hvalue : ∀ slot, s.Completes (.input slot) value)
    (hchain : ∀ slot, s.Completes (.body slot) chain) {rule : Rule} {links : List Link}
    (hvisits : rule.Visits links) (hclear : s.Clear (b.edges links) t)
    {outcome : Except GenerateError Phrase}
    (h : s.runRule b type value chain rule t = some (outcome, t')) :
    (∃ phrase, outcome = .ok phrase) ∧ s.PlacedFrom (b.edges links) t t' := by
  induction hvisits generalizing t with
  | done phrase =>
      cases h
      exact ⟨⟨phrase, rfl⟩, .refl [] _⟩
  | value error ok ih =>
      rcases runRule_value_eq_some h with
        ⟨hslot, hrest⟩ | ⟨child, answer, t₁, hslot, hwalk, hrest⟩
      · rw [Block.edges_cons_none hslot] at hclear ⊢
        exact ih _ hclear hrest
      · rw [Block.edges_cons_some hslot] at hclear ⊢
        obtain ⟨⟨a, rfl⟩, hplaced⟩ := hvalue _ (Clear.left (l := [_]) hclear) hwalk
        obtain ⟨hok, hrest⟩ := ih _ (Clear.right (l := [_]) hclear hplaced) hrest
        exact ⟨hok, hplaced.append hrest⟩
  | body error ok ih =>
      rcases runRule_statements_eq_some h with
        ⟨hslot, hrest⟩ | ⟨head, answer, t₁, hslot, hwalk, hrest⟩
      · rw [Block.edges_cons_none hslot] at hclear ⊢
        exact ih _ hclear hrest
      · rw [Block.edges_cons_some hslot] at hclear ⊢
        obtain ⟨⟨body, rfl⟩, hplaced⟩ := hchain _ (Clear.left (l := [_]) hclear) hwalk
        obtain ⟨hok, hrest⟩ := ih _ (Clear.right (l := [_]) hclear hplaced) hrest
        exact ⟨hok, hplaced.append hrest⟩

/-- Rendering a block whose references are clear ends well and places what it should. -/
def Renders (s : Surroundings) (render : Block → BlockType → Walk Phrase) : Prop :=
  ∀ {b type links outcome t t'}, (type.rule b s.registries).Visits links →
    s.Clear (b.edges links) t → render b type t = some (outcome, t') →
      (∃ phrase, outcome = .ok phrase) ∧ s.PlacedFrom (b.edges links) t t'

section Render

variable {render : Block → BlockType → Walk Phrase} (hsteady : s.catalog.Steady)
  (hrender : s.Renders render)

include hsteady hrender

theorem completes_walkValue (slot : String) : s.Completes (.input slot) (s.walkValue render) := by
  intro id t outcome t' hclear h
  have hmem : (Link.input slot, id) ∈ [(Link.input slot, id)] := List.mem_singleton_self _
  have hfree := hclear.free hmem (.stop _ id)
  obtain ⟨b, type, hlookup⟩ := hclear.known hmem (.stop _ id)
  obtain ⟨links, hnodup, hvisits⟩ := hsteady _ _ (s.lookup_eq_ok.1 hlookup).2
  rw [walkValue_of_free hfree hlookup, Option.map_eq_some_iff] at h
  obtain ⟨⟨outcome', t₁⟩, hrendered, heq⟩ := h
  cases heq
  have hedges : s.Clear (b.edges links) (t.enter id) := by
    refine hclear.edges hlookup (hvisits b s.registries) hnodup fun x hx => ?_
    rw [Trail.holds_iff] at hx ⊢
    rcases hx with hx | hx
    · exact (List.mem_cons.1 hx).symm.imp_left .inl
    · exact .inl (.inr hx)
  obtain ⟨⟨phrase, rfl⟩, hplaced⟩ := hrender (hvisits b s.registries) hedges hrendered
  refine ⟨⟨_, rfl⟩, ?_, ?_⟩
  · rw [Trail.leave, hplaced.pending]
    rfl
  · intro x hx
    refine PlacedFrom.node hplaced (fun a ha => ?_) (fun x hx => .inl hx) hx
    exact (edge_iff hlookup (hvisits b s.registries)).2 ha

/-- A statement is placed, rendered and left for the rest of its chain. -/
theorem completes_placed {link : Link} (hlink : link.role = .chain) {id : String}
    {rest : List String} (hclear : s.Clear [(link, id)] t)
    (hrest : ∀ {b type t₁ outcome t'}, s.lookup id = .ok (b, type) →
      s.Clear (b.edges [.next]) t₁ → s.walkBlocks render rest t₁ = some (outcome, t') →
        (∃ codes, outcome = .ok codes) ∧ s.PlacedFrom (b.edges [.next]) t₁ t')
    {outcome : Except GenerateError (List String)}
    (h : s.walkBlocks render (id :: rest) t = some (outcome, t')) :
    (∃ codes, outcome = .ok codes) ∧ s.PlacedFrom [(link, id)] t t' := by
  have hmem : (link, id) ∈ [(link, id)] := List.mem_singleton_self _
  obtain ⟨b, type, hlookup⟩ := hclear.known hmem (.stop _ id)
  obtain ⟨links, hnodup, hvisits⟩ := hsteady _ _ (s.lookup_eq_ok.1 hlookup).2
  have hlinks : link.role.links links = links ++ [.next] := by rw [hlink, Role.links]
  have hedges : s.Clear (b.edges (links ++ [.next])) (t.place id) := by
    rw [← hlinks]
    refine hclear.edges hlookup (hvisits b s.registries) hnodup fun x hx => ?_
    rw [Trail.holds_iff] at hx ⊢
    rcases hx with hx | hx
    · exact .inl (.inl hx)
    · exact (List.mem_cons.1 hx).symm.imp_left .inr
  rw [Block.edges_append] at hedges
  rw [walkBlocks_of_free (hclear.free hmem (.stop _ id)) hlookup] at h
  obtain ⟨phrase, t₁, hrendered, h⟩ :=
    bind_of_ok (fun h => (hrender (hvisits b s.registries) hedges.left h).1) h
  have hslots := (hrender (hvisits b s.registries) hedges.left hrendered).2
  have hnext := hedges.right hslots
  obtain ⟨codes, t₂, hcodes, h⟩ := bind_of_ok (fun h => (hrest hlookup hnext h).1) h
  have hall := hslots.append (hrest hlookup hnext hcodes).2
  cases h
  refine ⟨⟨_, rfl⟩, hall.pending, ?_⟩
  intro x hx
  rw [← Block.edges_append, ← hlinks] at hall
  refine hall.node (t := t) (fun a ha => ?_) (fun x hx => ?_) hx
  · exact (edge_iff hlookup (hvisits b s.registries)).2 ha
  · rcases List.mem_cons.1 hx with rfl | hx
    · exact .inr ⟨rfl, hlink⟩
    · exact .inl hx

/-- The statements of a chain, or as many of them as are asked for. -/
theorem completes_walkBlocks (n : Nat) {link : Link} (hlink : link.role = .chain) :
    s.Completes link fun id => s.walkBlocks render (s.workspace.follow n id) := by
  have hempty : ∀ {b : Block} {t t' : Trail} {outcome : Except GenerateError (List String)},
      s.walkBlocks render [] t = some (outcome, t') →
        (∃ codes, outcome = .ok codes) ∧ s.PlacedFrom (b.edges [.next]) t t' := by
    intro b t t' outcome h
    cases h
    exact ⟨⟨[], rfl⟩, .refl _ _⟩
  induction n generalizing link with
  | zero =>
      intro id t outcome t' hclear h
      exact completes_placed hsteady hrender hlink hclear (fun _ _ h => hempty h) h
  | succ n ih =>
      intro id t outcome t' hclear h
      refine completes_placed hsteady hrender hlink hclear ?_ h
      intro b type t₁ outcome t' hlookup hnext hrest
      have hb := (s.lookup_eq_ok.1 hlookup).1
      cases hchild : b.next with
      | none =>
          simp only [hb, Option.bind_some, hchild] at hrest
          exact hempty hrest
      | some child =>
          simp only [hb, Option.bind_some, hchild] at hrest
          have hedge : b.edges [.next] = [(.next, child)] := Block.edges_cons_some hchild
          rw [hedge] at hnext ⊢
          exact ih rfl hnext hrest

theorem completes_walkChain {link : Link} (hlink : link.role = .chain) :
    s.Completes link (s.walkChain render) := by
  intro id t outcome t' hclear h
  have hblocks : s.Completes link fun id => s.walkBlocks render (s.workspace.chainIds id) :=
    completes_walkBlocks hsteady hrender s.workspace.size hlink
  obtain ⟨codes, t₁, hcodes, h⟩ := bind_of_ok (fun h => (hblocks hclear h).1) h
  have hplaced := (hblocks hclear hcodes).2
  cases h
  exact ⟨⟨_, rfl⟩, hplaced⟩

end Render

theorem renders_render (hsteady : s.catalog.Steady) (depth : Nat) :
    s.Renders (s.render depth) := by
  induction depth with
  | zero =>
      intro b type links outcome t t' _ _ h
      cases h
  | succ depth ih =>
      intro b type links outcome t t' hvisits hclear h
      exact completes_runRule (fun slot => completes_walkValue hsteady ih slot)
        (fun slot => completes_walkChain hsteady ih rfl) hvisits hclear h

theorem completes_walkHeads (hsteady : s.catalog.Steady) {depth : Nat} {heads : List String}
    {outcome : Except GenerateError (List String)} (hclear : s.Clear (heads.map (.next, ·)) t)
    (h : s.walkHeads depth heads t = some (outcome, t')) : ∃ codes, outcome = .ok codes := by
  induction heads generalizing t t' outcome with
  | nil =>
      cases h
      exact ⟨[], rfl⟩
  | cons head rest ih =>
      have hhead : s.Completes .next (s.walkChain (s.render depth)) :=
        completes_walkChain hsteady (renders_render hsteady depth) rfl
      have hfirst : s.Clear [(.next, head)] t := Clear.left (l := [_]) hclear
      obtain ⟨code, t₁, hcode, h⟩ := bind_of_ok (fun h => (hhead hfirst h).1) h
      have hrest : s.Clear (rest.map (.next, ·)) t₁ :=
        Clear.right (l := [_]) hclear (hhead hfirst hcode).2
      obtain ⟨codes, t₂, hcodes, h⟩ := bind_of_ok (fun h => ih hrest h) h
      cases h
      exact ⟨_, rfl⟩

theorem WellFormed.clear (h : s.WellFormed) :
    s.Clear (s.workspace.topLevelIds.map (.next, ·)) .start := by
  refine ⟨?_, ?_, ?_, ?_, ?_, ?_⟩
  · exact s.workspace.nodup_topLevelIds.map fun _ _ heq => congrArg (·.2) heq
  · intro a steps role x ha hroute
    obtain ⟨head, hhead, rfl⟩ := List.mem_map.1 ha
    obtain ⟨b, type, hfound⟩ := h.known head hhead steps role x hroute x hroute.end_mem
    exact ⟨b, type, s.lookup_eq_ok.2 hfound⟩
  · intro a steps role x ha hroute
    obtain ⟨head, hhead, rfl⟩ := List.mem_map.1 ha
    exact h.simple head hhead steps role x hroute
  · intro a₁ a₂ steps₁ steps₂ x ha₁ ha₂ h₁ h₂
    obtain ⟨head₁, hhead₁, rfl⟩ := List.mem_map.1 ha₁
    obtain ⟨head₂, hhead₂, rfl⟩ := List.mem_map.1 ha₂
    obtain ⟨rfl, rfl⟩ := h.single head₁ hhead₁ head₂ hhead₂ steps₁ steps₂ x h₁ h₂
    exact ⟨rfl, rfl⟩
  · intro a₁ a₂ steps₁ steps₂ x ha₁ ha₂ h₁ h₂
    obtain ⟨head₁, hhead₁, rfl⟩ := List.mem_map.1 ha₁
    obtain ⟨head₂, hhead₂, rfl⟩ := List.mem_map.1 ha₂
    exact h.apart head₁ hhead₁ head₂ hhead₂ steps₁ steps₂ x h₁ h₂
  · intro a steps role x ha hroute
    rfl

/-- Which references are followed depends on neither the registries nor the indentation. -/
theorem Edge.transfer {c : Catalog} (hsteady : c.Steady) {w : Workspace} {r r' : Registries}
    {i i' : Nat} {role : Role} {id : String} {link : Link} {child : String}
    (h : Edge ⟨c, w, r, i⟩ role id link child) : Edge ⟨c, w, r', i'⟩ role id link child := by
  obtain ⟨b, type, hlookup, htarget, hfollows⟩ := h
  refine ⟨b, type, hlookup, htarget, hfollows.imp_right fun hasks => ?_⟩
  obtain ⟨links, -, hvisits⟩ := hsteady _ _ (lookup_eq_ok ⟨c, w, r, i⟩ |>.1 hlookup).2
  exact ((hvisits b r').asks_iff link).2 (((hvisits b r).asks_iff link).1 hasks)

theorem Route.transfer {c : Catalog} (hsteady : c.Steady) {w : Workspace} {r r' : Registries}
    {i i' : Nat} {role role' : Role} {id id' : String} {steps : List (Link × String)}
    (h : Route ⟨c, w, r, i⟩ role id steps role' id') :
    Route ⟨c, w, r', i'⟩ role id steps role' id' := by
  induction h with
  | stop role id => exact .stop role id
  | step hedge _ ih => exact .step (hedge.transfer hsteady) ih

theorem WellFormed.transfer {c : Catalog} (hsteady : c.Steady) {w : Workspace}
    {r r' : Registries} {i i' : Nat} (h : WellFormed ⟨c, w, r, i⟩) :
    WellFormed ⟨c, w, r', i'⟩ := by
  refine ⟨⟨?_, ?_, ?_⟩, ?_⟩
  · intro head hhead steps role id hroute
    exact h.known head hhead steps role id (hroute.transfer hsteady)
  · intro head hhead steps role id hroute
    exact h.simple head hhead steps role id (hroute.transfer hsteady)
  · intro head₁ hhead₁ head₂ hhead₂ steps₁ steps₂ id h₁ h₂
    exact h.single head₁ hhead₁ head₂ hhead₂ steps₁ steps₂ id (h₁.transfer hsteady)
      (h₂.transfer hsteady)
  · intro head₁ hhead₁ head₂ hhead₂ steps₁ steps₂ id h₁ h₂
    exact h.apart head₁ hhead₁ head₂ hhead₂ steps₁ steps₂ id (h₁.transfer hsteady)
      (h₂.transfer hsteady)

/-- Every reference agrees with the roles of the blocks, and so do the top-level blocks. -/
structure Assigned (w : Workspace) (role : String → Role) : Prop where
  heads : ∀ head ∈ w.topLevelIds, role head = .chain
  next : ∀ entry ∈ w.blocks.entries, ∀ id ∈ entry.2.next, role id = .chain
  bodies : ∀ entry ∈ w.blocks.entries, ∀ slot ∈ entry.2.statements.entries, role slot.2 = .chain
  inputs : ∀ entry ∈ w.blocks.entries, ∀ slot ∈ entry.2.inputs.entries, role slot.2 = .value

theorem Assigned.edge {roleOf : String → Role} (h : Assigned s.workspace roleOf) {role : Role}
    {id : String} {link : Link} {child : String} (hedge : s.Edge role id link child) :
    roleOf child = link.role := by
  obtain ⟨b, type, hlookup, htarget, -⟩ := hedge
  have hb := Dict.mem_of_get? (s.lookup_eq_ok.1 hlookup).1
  cases link with
  | next => exact h.next _ hb _ htarget
  | body slot => exact h.bodies _ hb _ (Dict.mem_of_get? htarget)
  | input slot => exact h.inputs _ hb _ (Dict.mem_of_get? htarget)

theorem Assigned.route {roleOf : String → Role} (h : Assigned s.workspace roleOf)
    {role role' : Role} {id id' : String} {steps : List (Link × String)} (hid : roleOf id = role)
    (hroute : s.Route role id steps role' id') : roleOf id' = role' := by
  induction hroute with
  | stop role id => exact hid
  | step hedge _ ih => exact ih (h.edge hedge)

theorem WellLinked.wellFormed {roleOf : String → Role} (hlinked : s.WellLinked)
    (h : Assigned s.workspace roleOf) : s.WellFormed := by
  refine ⟨hlinked, ?_⟩
  intro head₁ hhead₁ head₂ hhead₂ steps₁ steps₂ id h₁ h₂
  have hchain := h.route (h.heads head₁ hhead₁) h₁
  rw [h.route (h.heads head₂ hhead₂) h₂] at hchain
  cases hchain

end Surroundings

theorem Catalog.Steady.generate_eq_ok {c : Catalog} (hsteady : c.Steady)
    {options : GenerateOptions} {w : Workspace} {r : Registries}
    (h : Surroundings.WellFormed ⟨c, w, r, options.indentWidth⟩) :
    ∃ text, generate c options w r = .ok text := by
  obtain ⟨outcome, t, hwalk, heq⟩ := generate_eq_map c options w r
  obtain ⟨chains, rfl⟩ := Surroundings.completes_walkHeads hsteady h.clear hwalk
  exact ⟨_, heq⟩

/-- A well formed graph has a program, whatever the registries and the options are. -/
theorem generate_eq_ok_of_wellFormed {w : Workspace} {r : Registries} {width : Nat}
    (h : Surroundings.WellFormed ⟨.standard, w, r, width⟩) (options : GenerateOptions)
    (r' : Registries) : ∃ text, generate .standard options w r' = .ok text :=
  Catalog.steady_standard.generate_eq_ok (h.transfer Catalog.steady_standard)

/-- A statement that shows the sum of an expression with itself. -/
def showTwice : Workspace :=
  Workspace.empty
    |>.insert "show" ((Block.new "output_show").withInput "VALUE" "sum" |>.atTopLevel 0 0)
    |>.insert "sum" ((Block.new "math_add").withInput "A" "ticks" |>.withInput "B" "ticks")
    |>.insert "ticks" (Block.new "observer_ticks")

theorem assigned_showTwice :
    Surroundings.Assigned showTwice fun id => if id = "show" then .chain else .value :=
  ⟨by decide +kernel, by decide +kernel, by decide +kernel, by decide +kernel⟩

theorem generate_showTwice_eq_ok :
    Surroundings.WellFormed ⟨.standard, showTwice, .empty, 2⟩ ∧
      ∃ text, generate .standard ⟨4, true⟩ showTwice .empty = .ok text := by
  have hok : generate .standard .default showTwice .empty = .ok "show ticks + ticks" := by
    decide +kernel
  have hlinked : Surroundings.WellLinked ⟨.standard, showTwice, .empty, 2⟩ :=
    Catalog.steady_standard.wellLinked hok
  have h := hlinked.wellFormed assigned_showTwice
  exact ⟨h, generate_eq_ok_of_wellFormed h ⟨4, true⟩ .empty⟩

end AgentBlocks
