import AgentBlocks.Proofs.Walk.Totality

/-!
Errors tell the truth. A walk that fails has come to a block that is missing or of no known type, or
to one that the graph refers to twice: along one route, or over two routes of which one ends in it
as a statement. The trail is the evidence, so what a walk that ends well has placed is traced back
to the routes that it went over.
-/
namespace AgentBlocks

namespace Surroundings

open Walk

variable (s : Surroundings)

/-- What a failed walk over some references gives as its reason: a block on their routes that is not
known, that the trail held before, that one route passes twice, or that two of them end in. -/
inductive Blames (starts : List (Link × String)) (t : Trail) : GenerateError → Prop
  | unknown {a steps role x e} : a ∈ starts → s.Route a.1.role a.2 steps role x →
      s.lookup x = .error e → Blames starts t e
  | held {a steps role x} : a ∈ starts → s.Route a.1.role a.2 steps role x →
      t.holds x = true → Blames starts t (.cyclicGraph x)
  | passed {a steps role y x} : a ∈ starts → s.Route a.1.role a.2 steps role y →
      2 ≤ (routeIds a.2 steps).count x → Blames starts t (.cyclicGraph x)
  | shared {a₁ a₂ steps₁ steps₂ role x} : a₁ ∈ starts → a₂ ∈ starts →
      s.Route a₁.1.role a₁.2 steps₁ .chain x → s.Route a₂.1.role a₂.2 steps₂ role x →
      a₁ :: steps₁ ≠ a₂ :: steps₂ → Blames starts t (.cyclicGraph x)

/-- A walk over some references has placed statements on their routes only, or it has failed with a
reason. -/
def Judged {α : Type} (starts : List (Link × String)) (t t' : Trail) :
    Except GenerateError α → Prop
  | .ok _ => s.PlacedFrom starts t t'
  | .error e => s.Blames starts t e

variable {s} {l m : List (Link × String)} {t t₁ t' : Trail} {e : GenerateError}

theorem Blames.mono (h : s.Blames l t e) (hsub : l ⊆ m) : s.Blames m t e := by
  cases h with
  | unknown ha hroute hlookup => exact .unknown (hsub ha) hroute hlookup
  | held ha hroute hheld => exact .held (hsub ha) hroute hheld
  | passed ha hroute hcount => exact .passed (hsub ha) hroute hcount
  | shared ha₁ ha₂ h₁ h₂ hne => exact .shared (hsub ha₁) (hsub ha₂) h₁ h₂ hne

/-- A block that is held because of earlier references is the end of a route over one of them. -/
theorem Blames.after (hplaced : s.PlacedFrom l t t₁) (h : s.Blames m t₁ e)
    (hnodup : (l ++ m).Nodup) : s.Blames (l ++ m) t e := by
  cases h with
  | unknown ha hroute hlookup => exact .unknown (List.mem_append_right l ha) hroute hlookup
  | passed ha hroute hcount => exact .passed (List.mem_append_right l ha) hroute hcount
  | shared ha₁ ha₂ h₁ h₂ hne =>
      exact .shared (List.mem_append_right l ha₁) (List.mem_append_right l ha₂) h₁ h₂ hne
  | @held a steps role x ha hroute hheld =>
      have hmem := List.mem_append_right l ha
      rw [Trail.holds_iff, hplaced.pending] at hheld
      rcases hheld with hx | hx
      · exact .held hmem hroute (Trail.holds_iff.2 (.inl hx))
      · rcases hplaced.placed hx with hx | ⟨a', ha', steps', hroute'⟩
        · exact .held hmem hroute (Trail.holds_iff.2 (.inr hx))
        · refine .shared (List.mem_append_left m ha') hmem hroute' hroute fun heq => ?_
          obtain ⟨rfl, -⟩ := List.cons.inj heq
          exact (List.nodup_append.1 hnodup).2.2 _ ha' _ ha rfl

/-- A reason on the references of a block is one on the reference to it; if the block itself was
held in the meantime, the route comes back to it. -/
theorem Blames.node {link : Link} {id : String} {edges : List (Link × String)}
    (h : s.Blames edges t₁ e) (hedges : ∀ a ∈ edges, s.Edge link.role id a.1 a.2)
    (hheld : ∀ x, t₁.holds x = true → t.holds x = true ∨ x = id) :
    s.Blames [(link, id)] t e := by
  have hmem : (link, id) ∈ [(link, id)] := List.mem_singleton_self _
  cases h with
  | unknown ha hroute hlookup => exact .unknown hmem (.step (hedges _ ha) hroute) hlookup
  | @held a steps role x ha hroute hx =>
      have hstep := Route.step (hedges _ ha) hroute
      rcases hheld x hx with hx | rfl
      · exact .held hmem hstep hx
      · refine .passed hmem hstep ?_
        have hback : 0 < (routeIds a.2 steps).count x := List.count_pos_iff.2 hroute.end_mem
        rw [routeIds, List.count_cons_self]
        exact Nat.succ_le_succ hback
  | passed ha hroute hcount =>
      exact .passed hmem (.step (hedges _ ha) hroute)
        (Nat.le_trans hcount (List.count_le_count_cons))
  | shared ha₁ ha₂ h₁ h₂ hne =>
      refine .shared hmem hmem (.step (hedges _ ha₁) h₁) (.step (hedges _ ha₂) h₂) fun heq => ?_
      exact hne (List.cons.inj heq).2

theorem Judged.append {α : Type} {outcome : Except GenerateError α}
    (hplaced : s.PlacedFrom l t t₁) (h : s.Judged m t₁ t' outcome) (hnodup : (l ++ m).Nodup) :
    s.Judged (l ++ m) t t' outcome := by
  cases outcome with
  | ok a => exact hplaced.append h
  | error e => exact .after hplaced h hnodup

/-- What is done with the result alone needs no other judgement. -/
theorem Judged.map {α β : Type} {outcome : Except GenerateError α}
    (h : s.Judged l t t' outcome) (f : α → β) : s.Judged l t t' (outcome.map f) := by
  cases outcome with
  | ok a => exact h
  | error e => exact h

/-- A statement is judged by its references, walked after it was placed. -/
theorem Judged.placed {α : Type} {link : Link} {id : String} {edges : List (Link × String)}
    {outcome : Except GenerateError α} (hlink : link.role = .chain)
    (hedges : ∀ a ∈ edges, s.Edge link.role id a.1 a.2)
    (h : s.Judged edges (t.place id) t' outcome) : s.Judged [(link, id)] t t' outcome := by
  cases outcome with
  | error e =>
      refine Blames.node h hedges fun x hx => ?_
      rw [Trail.holds_iff] at hx ⊢
      rcases hx with hx | hx
      · exact .inl (.inl hx)
      · exact (List.mem_cons.1 hx).symm.imp_left .inr
  | ok a =>
      refine ⟨h.pending, fun {x} hx => PlacedFrom.node h hedges (fun x hx => ?_) hx⟩
      rcases List.mem_cons.1 hx with rfl | hx
      · exact .inr ⟨rfl, hlink⟩
      · exact .inl hx

/-- An expression is judged by its references, walked while it was pending. -/
theorem Judged.entered {α : Type} {link : Link} {id : String} {edges : List (Link × String)}
    {outcome : Except GenerateError α} (hedges : ∀ a ∈ edges, s.Edge link.role id a.1 a.2)
    (h : s.Judged edges (t.enter id) t' outcome) : s.Judged [(link, id)] t t'.leave outcome := by
  cases outcome with
  | error e =>
      refine Blames.node h hedges fun x hx => ?_
      rw [Trail.holds_iff] at hx ⊢
      rcases hx with hx | hx
      · exact (List.mem_cons.1 hx).symm.imp_left .inl
      · exact .inl (.inr hx)
  | ok a =>
      refine ⟨?_, fun {x} hx => PlacedFrom.node h hedges (fun x hx => .inl hx) hx⟩
      rw [Trail.leave, h.pending]
      rfl

/-- The walk over a reference is judged, however it ends. -/
def Accounts {α : Type} (s : Surroundings) (link : Link) (walk : String → Walk α) : Prop :=
  ∀ {id t outcome t'}, walk id t = some (outcome, t') → s.Judged [(link, id)] t t' outcome

theorem judged_runRule {b : Block} {type : BlockType}
    {value : String → Walk (String × Precedence)} {chain : String → Walk String}
    (hvalue : ∀ slot, s.Accounts (.input slot) value)
    (hchain : ∀ slot, s.Accounts (.body slot) chain) {rule : Rule} {links : List Link}
    (hvisits : rule.Visits links) (hnodup : (b.edges links).Nodup)
    {outcome : Except GenerateError Phrase}
    (h : s.runRule b type value chain rule t = some (outcome, t')) :
    s.Judged (b.edges links) t t' outcome := by
  induction hvisits generalizing t with
  | done phrase =>
      cases h
      exact .refl [] _
  | @value slot bound next links error ok ih =>
      rcases runRule_value_eq_some h with
        ⟨hslot, hrest⟩ | ⟨child, answer, t₁, hslot, hwalk, hrest⟩
      · rw [Block.edges_cons_none hslot] at hnodup ⊢
        exact ih _ hnodup hrest
      · rw [Block.edges_cons_some hslot] at hnodup ⊢
        have hjudged := hvalue slot hwalk
        cases answer with
        | error e =>
            have hfail : s.runRule b type value chain (.fail e) t₁ = _ := error e ▸ hrest
            cases runRule_fail hfail
            exact hjudged.mono (List.subset_append_left [_] _)
        | ok a => exact .append hjudged (ih _ (List.nodup_cons.1 hnodup).2 hrest) hnodup
  | @body slot next links error ok ih =>
      rcases runRule_statements_eq_some h with
        ⟨hslot, hrest⟩ | ⟨head, answer, t₁, hslot, hwalk, hrest⟩
      · rw [Block.edges_cons_none hslot] at hnodup ⊢
        exact ih _ hnodup hrest
      · rw [Block.edges_cons_some hslot] at hnodup ⊢
        have hjudged := hchain slot hwalk
        cases answer with
        | error e =>
            have hfail : s.runRule b type value chain (.fail e) t₁ = _ := error e ▸ hrest
            cases runRule_fail hfail
            exact hjudged.mono (List.subset_append_left [_] _)
        | ok body => exact .append hjudged (ih _ (List.nodup_cons.1 hnodup).2 hrest) hnodup

/-- Rendering a block is judged by its references. -/
def Reports (s : Surroundings) (render : Block → BlockType → Walk Phrase) : Prop :=
  ∀ {b type links outcome t t'}, (type.rule b s.registries).Visits links →
    (b.edges links).Nodup → render b type t = some (outcome, t') →
      s.Judged (b.edges links) t t' outcome

section Render

variable {render : Block → BlockType → Walk Phrase} (hsteady : s.catalog.Steady)
  (hrender : s.Reports render)

include hsteady hrender

theorem accounts_walkValue (slot : String) : s.Accounts (.input slot) (s.walkValue render) := by
  intro id t outcome t' h
  have hmem : (Link.input slot, id) ∈ [(Link.input slot, id)] := List.mem_singleton_self _
  cases hfree : t.holds id with
  | true =>
      rw [walkValue_of_held hfree] at h
      cases h
      exact .held hmem (.stop _ id) hfree
  | false =>
      cases hlookup : s.lookup id with
      | error e =>
          rw [walkValue_of_unknown hfree hlookup] at h
          cases h
          exact .unknown hmem (.stop _ id) hlookup
      | ok found =>
          obtain ⟨b, type⟩ := found
          obtain ⟨links, hnodup, hvisits⟩ := hsteady _ _ (s.lookup_eq_ok.1 hlookup).2
          rw [walkValue_of_free hfree hlookup, Option.map_eq_some_iff] at h
          obtain ⟨⟨outcome', t₁⟩, hrendered, heq⟩ := h
          cases heq
          have hedges : ∀ a ∈ b.edges links, s.Edge (Link.input slot).role id a.1 a.2 :=
            fun a ha => (edge_iff hlookup (hvisits b s.registries)).2 ha
          have hjudged := hrender (hvisits b s.registries)
            (nodup_edges b .value (hvisits b s.registries) hnodup) hrendered
          exact (hjudged.entered hedges).map _

/-- A statement is judged by its references: those of its rule first, and then the one to the next
statement. -/
theorem judged_placed {link : Link} (hlink : link.role = .chain) {id : String}
    {rest : List String}
    (hrest : ∀ {b type t₁ outcome t'}, s.lookup id = .ok (b, type) →
      s.walkBlocks render rest t₁ = some (outcome, t') → s.Judged (b.edges [.next]) t₁ t' outcome)
    {outcome : Except GenerateError (List String)}
    (h : s.walkBlocks render (id :: rest) t = some (outcome, t')) :
    s.Judged [(link, id)] t t' outcome := by
  have hmem : (link, id) ∈ [(link, id)] := List.mem_singleton_self _
  cases hfree : t.holds id with
  | true =>
      rw [walkBlocks_of_held hfree] at h
      cases h
      exact .held hmem (.stop _ id) hfree
  | false =>
      cases hlookup : s.lookup id with
      | error e =>
          rw [walkBlocks_of_unknown hfree hlookup] at h
          cases h
          exact .unknown hmem (.stop _ id) hlookup
      | ok found =>
          obtain ⟨b, type⟩ := found
          obtain ⟨links, hnodup, hvisits⟩ := hsteady _ _ (s.lookup_eq_ok.1 hlookup).2
          have hedges : ∀ a ∈ b.edges (links ++ [.next]), s.Edge link.role id a.1 a.2 := by
            rw [hlink]
            exact fun a ha => (edge_iff hlookup (hvisits b s.registries)).2 ha
          have hall : (b.edges links ++ b.edges [.next]).Nodup := by
            rw [← Block.edges_append]
            exact nodup_edges b .chain (hvisits b s.registries) hnodup
          have hslots : ∀ {outcome t₁}, render b type (t.place id) = some (outcome, t₁) →
              s.Judged (b.edges links) (t.place id) t₁ outcome :=
            fun h => hrender (hvisits b s.registries) (List.nodup_append.1 hall).1 h
          have hbegun : s.Judged (b.edges (links ++ [.next])) (t.place id) t' outcome := by
            rw [Block.edges_append]
            rw [walkBlocks_of_free hfree hlookup] at h
            rcases bind_eq_some.1 h with ⟨e, hfailed, rfl⟩ | ⟨phrase, t₁, hrendered, h⟩
            · exact (hslots hfailed).mono (List.subset_append_left _ _)
            · obtain ⟨outcome', hcodes, rfl⟩ := bind_pure_eq_some.1 h
              exact (Judged.append (hslots hrendered) (hrest hlookup hcodes) hall).map _
          exact hbegun.placed hlink hedges

/-- The statements of a chain, or as many of them as are asked for. -/
theorem accounts_walkBlocks (n : Nat) {link : Link} (hlink : link.role = .chain) :
    s.Accounts link fun id => s.walkBlocks render (s.workspace.follow n id) := by
  have hempty : ∀ {b : Block} {t t' : Trail} {outcome : Except GenerateError (List String)},
      s.walkBlocks render [] t = some (outcome, t') → s.Judged (b.edges [.next]) t t' outcome := by
    intro b t t' outcome h
    cases h
    exact PlacedFrom.refl _ _
  induction n generalizing link with
  | zero =>
      intro id t outcome t' h
      exact judged_placed hsteady hrender hlink (fun _ h => hempty h) h
  | succ n ih =>
      intro id t outcome t' h
      refine judged_placed hsteady hrender hlink ?_ h
      intro b type t₁ outcome t' hlookup hrest
      have hb := (s.lookup_eq_ok.1 hlookup).1
      cases hchild : b.next with
      | none =>
          simp only [hb, Option.bind_some, hchild] at hrest
          exact hempty hrest
      | some child =>
          simp only [hb, Option.bind_some, hchild] at hrest
          have hedge : b.edges [.next] = [(.next, child)] := Block.edges_cons_some hchild
          have haccounts : s.Accounts .next fun id =>
              s.walkBlocks render (s.workspace.follow n id) := ih rfl
          rw [hedge]
          exact haccounts hrest

theorem accounts_walkChain {link : Link} (hlink : link.role = .chain) :
    s.Accounts link (s.walkChain render) := by
  intro id t outcome t' h
  obtain ⟨outcome', hblocks, rfl⟩ := bind_pure_eq_some.1 h
  exact Judged.map (accounts_walkBlocks hsteady hrender s.workspace.size hlink hblocks) _

end Render

theorem reports_render (hsteady : s.catalog.Steady) (depth : Nat) :
    s.Reports (s.render depth) := by
  induction depth with
  | zero =>
      intro b type links outcome t t' _ _ h
      cases h
  | succ depth ih =>
      intro b type links outcome t t' hvisits hnodup h
      exact judged_runRule (accounts_walkValue hsteady ih)
        (fun slot => accounts_walkChain hsteady ih rfl) hvisits hnodup h

theorem judged_walkHeads (hsteady : s.catalog.Steady) {depth : Nat} {heads : List String}
    {outcome : Except GenerateError (List String)} (hnodup : heads.Nodup)
    (h : s.walkHeads depth heads t = some (outcome, t')) :
    s.Judged (heads.map (.next, ·)) t t' outcome := by
  induction heads generalizing t t' outcome with
  | nil =>
      cases h
      exact PlacedFrom.refl _ _
  | cons head rest ih =>
      have hstarts : ((head :: rest).map (Link.next, ·)).Nodup :=
        hnodup.map fun _ _ heq => congrArg (·.2) heq
      have hhead : s.Accounts .next (s.walkChain (s.render depth)) :=
        accounts_walkChain hsteady (reports_render hsteady depth) rfl
      rcases bind_eq_some.1 h with ⟨e, hfailed, rfl⟩ | ⟨code, t₁, hcode, h⟩
      · exact (hhead hfailed).mono (List.subset_append_left [_] _)
      · obtain ⟨outcome', hcodes, rfl⟩ := bind_pure_eq_some.1 h
        have hrest := ih (List.nodup_cons.1 hnodup).2 hcodes
        exact (Judged.append (hhead hcode) hrest hstarts).map _

theorem lookup_eq_error {id : String} (h : s.lookup id = .error e) :
    (s.workspace.block? id = none ∧ e = .missingBlock id) ∨
      ∃ b, s.workspace.block? id = some b ∧ s.catalog.type? b.blockType = none ∧
        e = .unknownBlockType b.blockType id := by
  unfold lookup at h
  split at h
  · rename_i hmissing
    cases h
    exact .inl ⟨hmissing, rfl⟩
  · rename_i b hb
    split at h
    · rename_i htype
      cases h
      exact .inr ⟨b, hb, htype, rfl⟩
    · cases h

variable (s)

/-- Some walk from a top-level block ends at the id. -/
def Reaches (id : String) : Prop :=
  ∃ head ∈ s.workspace.topLevelIds, ∃ steps role, s.Route .chain head steps role id

/-- What an error says holds of the graph. -/
def Truthful : GenerateError → Prop
  | .missingBlock id => s.Reaches id ∧ s.workspace.block? id = none
  | .unknownBlockType blockType id =>
    s.Reaches id ∧ (∃ b, s.workspace.block? id = some b ∧ b.blockType = blockType) ∧
      s.catalog.type? blockType = none
  | .cyclicGraph id =>
    (∃ head ∈ s.workspace.topLevelIds, ∃ steps role x, s.Route .chain head steps role x ∧
      2 ≤ (routeIds head steps).count id) ∨
    ∃ head₁ ∈ s.workspace.topLevelIds, ∃ head₂ ∈ s.workspace.topLevelIds, ∃ steps₁ steps₂ role,
      s.Route .chain head₁ steps₁ .chain id ∧ s.Route .chain head₂ steps₂ role id ∧
        (head₁, steps₁) ≠ (head₂, steps₂)

variable {s}

/-- Nothing is held when the walk over the top-level blocks begins. -/
theorem Blames.truthful (h : s.Blames (s.workspace.topLevelIds.map (.next, ·)) .start e) :
    s.Truthful e := by
  have hstart : ∀ {a}, a ∈ s.workspace.topLevelIds.map (Link.next, ·) →
      a.2 ∈ s.workspace.topLevelIds ∧ a = (.next, a.2) := by
    intro a ha
    obtain ⟨head, hhead, rfl⟩ := List.mem_map.1 ha
    exact ⟨hhead, rfl⟩
  cases h with
  | @unknown a steps role x _ ha hroute hlookup =>
      obtain ⟨hhead, heq⟩ := hstart ha
      rw [heq] at hroute
      have hreaches : s.Reaches x := ⟨a.2, hhead, steps, role, hroute⟩
      rcases lookup_eq_error hlookup with ⟨hmissing, rfl⟩ | ⟨b, hb, htype, rfl⟩
      · exact ⟨hreaches, hmissing⟩
      · exact ⟨hreaches, ⟨b, hb, rfl⟩, htype⟩
  | held ha hroute hheld => cases hheld
  | @passed a steps role y x ha hroute hcount =>
      obtain ⟨hhead, heq⟩ := hstart ha
      rw [heq] at hroute
      exact .inl ⟨a.2, hhead, steps, role, y, hroute, hcount⟩
  | @shared a₁ a₂ steps₁ steps₂ role x ha₁ ha₂ h₁ h₂ hne =>
      obtain ⟨hhead₁, heq₁⟩ := hstart ha₁
      obtain ⟨hhead₂, heq₂⟩ := hstart ha₂
      rw [heq₁] at h₁
      rw [heq₂] at h₂
      refine .inr ⟨a₁.2, hhead₁, a₂.2, hhead₂, steps₁, steps₂, role, h₁, h₂, fun heq => hne ?_⟩
      obtain ⟨hheads, rfl⟩ := Prod.mk.inj heq
      rw [heq₁, heq₂, hheads]

end Surroundings

theorem Catalog.Steady.truthful {c : Catalog} (hsteady : c.Steady) {options : GenerateOptions}
    {w : Workspace} {r : Registries} {e : GenerateError}
    (h : generate c options w r = .error e) :
    Surroundings.Truthful ⟨c, w, r, options.indentWidth⟩ e := by
  obtain ⟨outcome, t, hwalk, heq⟩ := generate_eq_map c options w r
  rw [h] at heq
  have hjudged := Surroundings.judged_walkHeads hsteady w.nodup_topLevelIds hwalk
  cases outcome with
  | ok chains => cases heq
  | error e' =>
      cases heq
      exact Surroundings.Blames.truthful hjudged

/-- An error tells the truth about the graph: a missing block is missing and some walk from a
top-level block ends at it, a block of an unknown type is reached and its type is not in the
catalog, and a block that is named for a cycle is on some walk twice or at the end of two walks, of
which one comes to it as a statement. -/
theorem truthful_of_generate {options : GenerateOptions} {w : Workspace} {r : Registries}
    {e : GenerateError} (h : generate .standard options w r = .error e) :
    Surroundings.Truthful ⟨.standard, w, r, options.indentWidth⟩ e :=
  Catalog.steady_standard.truthful h

/-- Two chains that go on with the same statement. -/
def joinedChains : Workspace :=
  Workspace.empty
    |>.insert "fd" ((Block.new "turtle_forward").withNext "die" |>.atTopLevel 0 0)
    |>.insert "bk" ((Block.new "turtle_back").withNext "die" |>.atTopLevel 0 1)
    |>.insert "die" (Block.new "agent_die")

theorem truthful_joinedChains :
    generate .standard .default joinedChains .empty = .error (.cyclicGraph "die") ∧
      Surroundings.Truthful ⟨.standard, joinedChains, .empty, 2⟩ (.cyclicGraph "die") := by
  have h : generate .standard .default joinedChains .empty = .error (.cyclicGraph "die") := by
    decide +kernel
  exact ⟨h, truthful_of_generate h⟩

end AgentBlocks
