import AgentBlocks.Proofs.Catalog.Slots
import AgentBlocks.Proofs.Walk.Depth
import AgentBlocks.Proofs.Walk.Step
import Mathlib.Control.Monad.Basic

/-!
Soundness of acceptance: a graph that has a program is well linked. What a walk that ends well has
explored is told by its trail, and two parts of a walk are kept apart by what the first has placed.
-/
namespace AgentBlocks

namespace Surroundings

open Walk

variable (s : Surroundings)

/-- What a walk that ended well has made sure of, from a block in a role: all routes from there
lead through known blocks that were free before, none repeats a block, and each statement on them
has been placed and is the end of one route only. -/
structure Explored (role : Role) (id : String) (t t' : Trail) : Prop where
  grows : t.Grows t'
  known : ∀ {steps role' x}, s.Route role id steps role' x → ∃ b type, s.lookup x = .ok (b, type)
  fresh : ∀ {steps role' x}, s.Route role id steps role' x → t.holds x = false
  simple : ∀ {steps role' x}, s.Route role id steps role' x → (routeIds id steps).Nodup
  placed : ∀ {steps x}, s.Route role id steps .chain x → x ∈ t'.placed
  single : ∀ {steps₁ steps₂ x}, s.Route role id steps₁ .chain x →
    s.Route role id steps₂ .chain x → steps₁ = steps₂

/-- Blocks explored one after the other, each in the role of the reference to it. -/
inductive Stages : List (Link × String) → Trail → Trail → Prop
  | nil (t : Trail) : Stages [] t t
  | cons {link child rest t t₁ t'} : s.Explored link.role child t t₁ → Stages rest t₁ t' →
      Stages ((link, child) :: rest) t t'

/-- What a walk over several references has made sure of. -/
structure ExploredAll (starts : List (Link × String)) (t t' : Trail) : Prop where
  grows : t.Grows t'
  known : ∀ {a steps role' x}, a ∈ starts → s.Route a.1.role a.2 steps role' x →
    ∃ b type, s.lookup x = .ok (b, type)
  fresh : ∀ {a steps role' x}, a ∈ starts → s.Route a.1.role a.2 steps role' x →
    t.holds x = false
  simple : ∀ {a steps role' x}, a ∈ starts → s.Route a.1.role a.2 steps role' x →
    (routeIds a.2 steps).Nodup
  placed : ∀ {a steps x}, a ∈ starts → s.Route a.1.role a.2 steps .chain x → x ∈ t'.placed
  single : ∀ {a₁ a₂ steps₁ steps₂ x}, a₁ ∈ starts → a₂ ∈ starts →
    s.Route a₁.1.role a₁.2 steps₁ .chain x → s.Route a₂.1.role a₂.2 steps₂ .chain x →
    a₁ = a₂ ∧ steps₁ = steps₂

variable {s} {t t₁ t' : Trail}

theorem Stages.append {l m : List (Link × String)} (h : s.Stages l t t₁) (h' : s.Stages m t₁ t') :
    s.Stages (l ++ m) t t' := by
  induction h with
  | nil t => exact h'
  | cons hfirst _ ih => exact .cons hfirst (ih h')

theorem Stages.exploredAll {starts : List (Link × String)} (h : s.Stages starts t t') :
    s.ExploredAll starts t t' := by
  induction h with
  | nil t => exact ⟨.refl t, nofun, nofun, nofun, nofun, nofun⟩
  | @cons link child rest t t₁ t' hfirst _ ih =>
      -- what the first reference has placed is not free for the others
      have hapart : ∀ {a' : Link × String} {steps₁ steps₂ x}, a' ∈ rest →
          s.Route link.role child steps₁ .chain x →
          s.Route a'.1.role a'.2 steps₂ .chain x → False := by
        intro a' steps₁ steps₂ x ha' h₁ h₂
        have hheld : t₁.holds x = true := Trail.holds_iff.2 (.inr (hfirst.placed h₁))
        rw [ih.fresh ha' h₂] at hheld
        cases hheld
      refine ⟨hfirst.grows.trans ih.grows, ?_, ?_, ?_, ?_, ?_⟩
      · intro a' steps role' x ha' hroute
        rcases List.mem_cons.1 ha' with rfl | ha'
        · exact hfirst.known hroute
        · exact ih.known ha' hroute
      · intro a' steps role' x ha' hroute
        rcases List.mem_cons.1 ha' with rfl | ha'
        · exact hfirst.fresh hroute
        · exact hfirst.grows.free (ih.fresh ha' hroute)
      · intro a' steps role' x ha' hroute
        rcases List.mem_cons.1 ha' with rfl | ha'
        · exact hfirst.simple hroute
        · exact ih.simple ha' hroute
      · intro a' steps x ha' hroute
        rcases List.mem_cons.1 ha' with rfl | ha'
        · exact ih.grows.placed (hfirst.placed hroute)
        · exact ih.placed ha' hroute
      · intro a₁ a₂ steps₁ steps₂ x ha₁ ha₂ h₁ h₂
        rcases List.mem_cons.1 ha₁ with hfirst₁ | hrest₁
        · subst hfirst₁
          rcases List.mem_cons.1 ha₂ with hfirst₂ | hrest₂
          · subst hfirst₂
            exact ⟨rfl, hfirst.single h₁ h₂⟩
          · exact (hapart hrest₂ h₁ h₂).elim
        · rcases List.mem_cons.1 ha₂ with hfirst₂ | hrest₂
          · subst hfirst₂
            exact (hapart hrest₁ h₂ h₁).elim
          · exact ih.single hrest₁ hrest₂ h₁ h₂

/-- A block is explored when all its references have been, while it was held. -/
theorem Explored.of_edges {role : Role} {id : String} {b : Block} {type : BlockType}
    {edges : List (Link × String)} {t₂ : Trail} (hlookup : s.lookup id = .ok (b, type))
    (hedges : ∀ link child, s.Edge role id link child → (link, child) ∈ edges)
    (hfree : t.holds id = false) (hheld : t₁.holds id = true)
    (hold : ∀ x, t.holds x = true → t₁.holds x = true)
    (h : s.ExploredAll edges t₁ t₂) (hgrows : t.Grows t')
    (hplaced : t₂.placed ⊆ t'.placed) (hid : role = .chain → id ∈ t'.placed) :
    s.Explored role id t t' := by
  -- routes over a reference never come back to the block
  have hback : ∀ {link child steps role' x}, s.Edge role id link child →
      s.Route link.role child steps role' x → x ≠ id := by
    rintro link child steps role' x hedge hroute rfl
    rw [h.fresh (hedges _ _ hedge) hroute] at hheld
    cases hheld
  refine ⟨hgrows, ?_, ?_, ?_, ?_, ?_⟩
  · intro steps role' x hroute
    cases hroute with
    | stop => exact ⟨b, type, hlookup⟩
    | step hedge hrest => exact h.known (hedges _ _ hedge) hrest
  · intro steps role' x hroute
    cases hroute with
    | stop => exact hfree
    | step hedge hrest =>
        have hx := h.fresh (hedges _ _ hedge) hrest
        cases hheld' : t.holds x with
        | false => rfl
        | true =>
            rw [hold x hheld'] at hx
            cases hx
  · intro steps role' x hroute
    cases hroute with
    | stop => simp [routeIds]
    | @step _ _ link child steps _ _ hedge hrest =>
        refine List.nodup_cons.2 ⟨?_, h.simple (hedges _ _ hedge) hrest⟩
        intro hmem
        obtain ⟨steps', role'', hprefix⟩ := hrest.of_mem hmem
        exact hback hedge hprefix rfl
  · intro steps x hroute
    cases hroute with
    | stop => exact hid rfl
    | step hedge hrest => exact hplaced (h.placed (hedges _ _ hedge) hrest)
  · intro steps₁ steps₂ x h₁ h₂
    cases h₁ with
    | stop =>
        cases h₂ with
        | stop => rfl
        | step hedge hrest => exact (hback hedge hrest rfl).elim
    | step hedge₁ hrest₁ =>
        cases h₂ with
        | stop => exact (hback hedge₁ hrest₁ rfl).elim
        | step hedge₂ hrest₂ =>
            obtain ⟨hlink, rfl⟩ :=
              h.single (hedges _ _ hedge₁) (hedges _ _ hedge₂) hrest₁ hrest₂
            cases hlink
            rfl

theorem Explored.of_placed {id : String} {b : Block} {type : BlockType} {links : List Link}
    (hlookup : s.lookup id = .ok (b, type)) (hvisits : (type.rule b s.registries).Visits links)
    (hfree : t.holds id = false) (hgrows : t.Grows t')
    (h : s.Stages (b.edges (links ++ [.next])) (t.place id) t') : s.Explored .chain id t t' := by
  have hall := h.exploredAll
  refine .of_edges hlookup (fun link child hedge => ?_) hfree ?_ ?_ hall hgrows (fun _ h => h) ?_
  · exact (edge_iff hlookup hvisits).1 hedge
  · exact Trail.holds_iff.2 (.inr List.mem_cons_self)
  · exact fun x hx => (t.grows_place id).holds hx
  · exact fun _ => hall.grows.placed List.mem_cons_self

/-- A rule that visits its slots and ends well has walked the blocks in them. -/
theorem stages_runRule {b : Block} {type : BlockType} {value : String → Walk (String × Precedence)}
    {chain : String → Walk String}
    (hvalue : ∀ id t a t', value id t = some (.ok a, t') → s.Explored .value id t t')
    (hchain : ∀ id t a t', chain id t = some (.ok a, t') → s.Explored .chain id t t')
    {rule : Rule} {links : List Link} (hvisits : rule.Visits links) {phrase : Phrase}
    (h : s.runRule b type value chain rule t = some (.ok phrase, t')) :
    s.Stages (b.edges links) t t' := by
  induction hvisits generalizing t with
  | done phrase =>
      cases h
      exact .nil _
  | value error ok ih =>
      rcases runRule_value_eq_some h with
        ⟨hslot, hrest⟩ | ⟨child, outcome, t₁, hslot, hwalk, hrest⟩
      · rw [Block.edges_cons_none hslot]
        exact ih _ hrest
      · rw [Block.edges_cons_some hslot]
        cases outcome with
        | error e =>
            have hfail : s.runRule b type value chain (.fail e) t₁ = _ := error e ▸ hrest
            cases runRule_fail hfail
        | ok a => exact .cons (hvalue _ _ _ _ hwalk) (ih _ hrest)
  | body error ok ih =>
      rcases runRule_statements_eq_some h with
        ⟨hslot, hrest⟩ | ⟨head, outcome, t₁, hslot, hwalk, hrest⟩
      · rw [Block.edges_cons_none hslot]
        exact ih _ hrest
      · rw [Block.edges_cons_some hslot]
        cases outcome with
        | error e =>
            have hfail : s.runRule b type value chain (.fail e) t₁ = _ := error e ▸ hrest
            cases runRule_fail hfail
        | ok body => exact .cons (hchain _ _ _ _ hwalk) (ih _ hrest)

def Explores (s : Surroundings) (render : Block → BlockType → Walk Phrase) : Prop :=
  ∀ {b type links phrase t t'}, (type.rule b s.registries).Visits links →
    render b type t = some (.ok phrase, t') →
      s.Stages (b.edges links) t t'

section Render

variable {render : Block → BlockType → Walk Phrase} (hkeeps : ∀ b type, (render b type).Keeps)
include hkeeps

/-- Blocks that were walked well are different blocks of the graph. -/
theorem distinct_of_walkBlocks {ids codes : List String}
    (h : s.walkBlocks render ids t = some (.ok codes, t')) :
    ids.Nodup ∧ ∀ id ∈ ids, t.holds id = false ∧ (s.workspace.block? id).isSome := by
  induction ids generalizing t codes with
  | nil => exact ⟨.nil, nofun⟩
  | cons id rest ih =>
      obtain ⟨b, type, phrase, t₁, codes', hfree, hlookup, hrendered, hrest, -⟩ :=
        walkBlocks_cons_eq_ok h
      obtain ⟨hnodup, hids⟩ := ih hrest
      have hplaced := hkeeps b type _ _ _ hrendered
      have hgrows := (t.grows_place id).trans hplaced
      refine ⟨List.nodup_cons.2 ⟨?_, hnodup⟩, ?_⟩
      · intro hmem
        have hfree' := hplaced.free (hids id hmem).1
        rw [Trail.holds_iff.2 (.inr List.mem_cons_self)] at hfree'
        cases hfree'
      · intro x hx
        rcases List.mem_cons.1 hx with rfl | hx
        · exact ⟨hfree, isSome_of_lookup hlookup⟩
        · exact ⟨hgrows.free (hids x hx).1, (hids x hx).2⟩

variable (hsteady : s.catalog.Steady) (hrender : s.Explores render)
include hsteady hrender

theorem explored_walkValue {id : String} {a : String × Precedence}
    (h : s.walkValue render id t = some (.ok a, t')) : s.Explored .value id t t' := by
  have hgrows := keeps_walkValue hkeeps id _ _ _ h
  obtain ⟨b, type, phrase, t₁, hfree, hlookup, hrendered, rfl, -⟩ := walkValue_eq_ok h
  obtain ⟨links, -, hvisits⟩ := hsteady _ _ ((s.lookup_eq_ok).1 hlookup).2
  have hall := (hrender (hvisits b s.registries) hrendered).exploredAll
  refine .of_edges hlookup (fun link child hedge => ?_) hfree ?_ ?_ hall hgrows (fun _ h => h) nofun
  · exact (edge_iff hlookup (hvisits b s.registries)).1 hedge
  · exact Trail.holds_iff.2 (.inl List.mem_cons_self)
  · intro x hx
    rw [Trail.holds_iff] at hx ⊢
    exact hx.imp_left (List.mem_cons_of_mem id)

theorem explored_walkBlocks {id : String} {ids codes : List String}
    (hchain : s.workspace.Chain id ids)
    (h : s.walkBlocks render ids t = some (.ok codes, t')) : s.Explored .chain id t t' := by
  have hgrows := keeps_walkBlocks hkeeps _ _ _ _ h
  induction hchain generalizing t codes with
  | @last id hend =>
      obtain ⟨b, type, phrase, t₁, codes', hfree, hlookup, hrendered, hrest, -⟩ :=
        walkBlocks_cons_eq_ok h
      cases hrest
      obtain ⟨hb, htype⟩ := s.lookup_eq_ok.1 hlookup
      obtain ⟨links, -, hvisits⟩ := hsteady _ _ htype
      have hnext : b.target? .next = none := by
        rw [hb] at hend
        exact hend
      refine .of_placed hlookup (hvisits b s.registries) hfree hgrows ?_
      rw [Block.edges_append, Block.edges_cons_none hnext]
      exact (hrender (hvisits b s.registries) hrendered).append (.nil _)
  | @cons id next rest hend _ ih =>
      obtain ⟨b, type, phrase, t₁, codes', hfree, hlookup, hrendered, hrest, -⟩ :=
        walkBlocks_cons_eq_ok h
      obtain ⟨hb, htype⟩ := s.lookup_eq_ok.1 hlookup
      obtain ⟨links, -, hvisits⟩ := hsteady _ _ htype
      have hnext : b.target? .next = some next := by
        rw [hb] at hend
        exact hend
      refine .of_placed hlookup (hvisits b s.registries) hfree hgrows ?_
      rw [Block.edges_append, Block.edges_cons_some hnext]
      have hlast := ih hrest (keeps_walkBlocks hkeeps _ _ _ _ hrest)
      exact (hrender (hvisits b s.registries) hrendered).append (.cons hlast (.nil _))

theorem explored_walkChain {head code : String}
    (h : s.walkChain render head t = some (.ok code, t')) : s.Explored .chain head t t' := by
  obtain ⟨codes, hblocks, -⟩ := walkChain_eq_ok h
  obtain ⟨hnodup, hids⟩ := distinct_of_walkBlocks hkeeps hblocks
  have hchain := Workspace.chain_chainIds hnodup fun id hid => (hids id hid).2
  exact explored_walkBlocks hkeeps hsteady hrender hchain hblocks

end Render

theorem explores_render (hsteady : s.catalog.Steady) (depth : Nat) :
    s.Explores (s.render depth) := by
  induction depth with
  | zero =>
      intro b type links phrase t t' _ h
      cases h
  | succ depth ih =>
      intro b type links phrase t t' hvisits h
      have hkeeps := s.keeps_render depth
      exact stages_runRule (fun _ _ _ _ h => explored_walkValue hkeeps hsteady ih h)
        (fun _ _ _ _ h => explored_walkChain hkeeps hsteady ih h) hvisits h

theorem stages_walkHeads (hsteady : s.catalog.Steady) {depth : Nat} {heads codes : List String}
    (h : s.walkHeads depth heads t = some (.ok codes, t')) :
    s.Stages (heads.map (.next, ·)) t t' := by
  induction heads generalizing t codes with
  | nil =>
      cases h
      exact .nil _
  | cons head rest ih =>
      obtain ⟨code, t₁, hhead, hrest⟩ := bind_eq_ok.1 h
      obtain ⟨codes', t₂, hcodes, hend⟩ := bind_eq_ok.1 hrest
      cases hend
      have hkeeps := s.keeps_render depth
      exact .cons (explored_walkChain hkeeps hsteady (explores_render hsteady depth) hhead)
        (ih hcodes)

theorem ExploredAll.wellLinked (h : s.ExploredAll (s.workspace.topLevelIds.map (.next, ·)) t t') :
    s.WellLinked := by
  have hmem : ∀ {head}, head ∈ s.workspace.topLevelIds →
      (Link.next, head) ∈ s.workspace.topLevelIds.map (Link.next, ·) :=
    fun hhead => List.mem_map_of_mem hhead
  refine ⟨?_, ?_, ?_⟩
  · intro head hhead steps role id hroute x hx
    obtain ⟨steps', role', hprefix⟩ := hroute.of_mem hx
    obtain ⟨b, type, hlookup⟩ := h.known (hmem hhead) hprefix
    exact ⟨b, type, s.lookup_eq_ok.1 hlookup⟩
  · intro head hhead steps role id hroute
    exact h.simple (hmem hhead) hroute
  · intro head₁ hhead₁ head₂ hhead₂ steps₁ steps₂ id h₁ h₂
    obtain ⟨heq, hsteps⟩ := h.single (hmem hhead₁) (hmem hhead₂) h₁ h₂
    exact ⟨congrArg (·.2) heq, hsteps⟩

end Surroundings

theorem Catalog.Steady.wellLinked {c : Catalog} (hsteady : c.Steady) {options : GenerateOptions}
    {w : Workspace} {r : Registries} {text : String} (h : generate c options w r = .ok text) :
    Surroundings.WellLinked ⟨c, w, r, options.indentWidth⟩ := by
  obtain ⟨outcome, t, hwalk, heq⟩ := generate_eq_map c options w r
  rw [h] at heq
  cases outcome with
  | error e => cases heq
  | ok chains =>
      exact (Surroundings.stages_walkHeads hsteady hwalk).exploredAll.wellLinked

/-- A graph that has a program is well linked: every walk from a top-level block comes to known
blocks of known types only and to none of them twice, and every statement is the end of one walk. -/
theorem wellLinked_of_generate {options : GenerateOptions} {w : Workspace} {r : Registries}
    {text : String} (h : generate .standard options w r = .ok text) :
    Surroundings.WellLinked ⟨.standard, w, r, options.indentWidth⟩ :=
  Catalog.steady_standard.wellLinked h

/-- Two statements, one of them with a statement and one with an expression in a slot. -/
def hatchThenShow : Workspace :=
  Workspace.empty
    |>.insert "hatch" ((Block.new "agent_hatch").withStatement "DO" "die"
      |>.withNext "show" |>.atTopLevel 0 0)
    |>.insert "show" ((Block.new "output_show").withInput "VALUE" "ticks")
    |>.insert "die" (Block.new "agent_die")
    |>.insert "ticks" (Block.new "observer_ticks")

theorem wellLinked_hatchThenShow :
    generate .standard .default hatchThenShow .empty = .ok "hatch 1 [\n  die\n]\nshow ticks" ∧
      Surroundings.WellLinked ⟨.standard, hatchThenShow, .empty, 2⟩ := by
  have h : generate .standard .default hatchThenShow .empty =
      .ok "hatch 1 [\n  die\n]\nshow ticks" := by decide +kernel
  exact ⟨h, wellLinked_of_generate h⟩

end AgentBlocks
