import AgentBlocks.Proofs.Walk.Frame
import AgentBlocks.Proofs.Walk.Route

/-!
The steps of a walk: what a rule does when it asks for a slot, and what is walked when a block is
free and known.
-/
namespace AgentBlocks

namespace Block

/-- The filled slots among some references, with the blocks that they lead to. -/
def edges (b : Block) (links : List Link) : List (Link × String) :=
  links.filterMap fun link => (b.target? link).map (link, ·)

theorem edges_cons_none {b : Block} {link : Link} {links : List Link}
    (h : b.target? link = none) : b.edges (link :: links) = b.edges links := by
  simp [edges, h]

theorem edges_cons_some {b : Block} {link : Link} {links : List Link} {child : String}
    (h : b.target? link = some child) :
    b.edges (link :: links) = (link, child) :: b.edges links := by
  simp [edges, h]

theorem edges_append (b : Block) (l m : List Link) : b.edges (l ++ m) = b.edges l ++ b.edges m :=
  List.filterMap_append

theorem mem_edges {b : Block} {links : List Link} {link : Link} {child : String} :
    (link, child) ∈ b.edges links ↔ link ∈ links ∧ b.target? link = some child := by
  simp only [edges, List.mem_filterMap, Option.map_eq_some_iff, Prod.mk.injEq]
  constructor
  · rintro ⟨link', hlink, child', htarget, rfl, rfl⟩
    exact ⟨hlink, htarget⟩
  · rintro ⟨hlink, htarget⟩
    exact ⟨link, hlink, child, htarget, rfl, rfl⟩

end Block

/-- The references that a block in a role may follow, when its rule asks for the given slots. -/
def Role.links (links : List Link) : Role → List Link
  | .chain => links ++ [.next]
  | .value => links

namespace Surroundings

open Walk

variable {s : Surroundings} {t t' : Trail} {b : Block} {type : BlockType}

section RunRule

variable {value : String → Walk (String × Precedence)} {chain : String → Walk String}
  {slot : String} {next : Except GenerateError String → Rule}
  {result : Except GenerateError Phrase}

theorem runRule_value_eq_some {bound : Bound}
    (h : s.runRule b type value chain (.value slot bound next) t = some (result, t')) :
    (b.target? (.input slot) = none ∧
        s.runRule b type value chain (next (.ok (type.defaultFor slot))) t = some (result, t')) ∨
      ∃ child outcome t₁, b.target? (.input slot) = some child ∧
        value child t = some (outcome, t₁) ∧
        s.runRule b type value chain (next (outcome.map fun a => bound.enclose a.1 a.2)) t₁ =
          some (result, t') := by
  cases hslot : b.inputs.get? slot with
  | none =>
      simp only [runRule, hslot] at h
      exact .inl ⟨hslot, h⟩
  | some child =>
      simp only [runRule, hslot] at h
      rcases bind_eq_some.1 h with ⟨e, hattempt, -⟩ | ⟨outcome, t₁, hattempt, hrest⟩
      · obtain ⟨outcome, -, heq⟩ := attempt_eq_some.1 hattempt
        cases heq
      · obtain ⟨outcome', hwalk, heq⟩ := attempt_eq_some.1 hattempt
        cases heq
        exact .inr ⟨child, outcome, t₁, hslot, hwalk, hrest⟩

theorem runRule_statements_eq_some
    (h : s.runRule b type value chain (.statements slot next) t = some (result, t')) :
    (b.target? (.body slot) = none ∧
        s.runRule b type value chain (next (.ok "")) t = some (result, t')) ∨
      ∃ head outcome t₁, b.target? (.body slot) = some head ∧
        chain head t = some (outcome, t₁) ∧
        s.runRule b type value chain (next (outcome.map (Text.indent s.indentWidth))) t₁ =
          some (result, t') := by
  cases hslot : b.statements.get? slot with
  | none =>
      simp only [runRule, hslot] at h
      exact .inl ⟨hslot, h⟩
  | some head =>
      simp only [runRule, hslot] at h
      rcases bind_eq_some.1 h with ⟨e, hattempt, -⟩ | ⟨outcome, t₁, hattempt, hrest⟩
      · obtain ⟨outcome, -, heq⟩ := attempt_eq_some.1 hattempt
        cases heq
      · obtain ⟨outcome', hwalk, heq⟩ := attempt_eq_some.1 hattempt
        cases heq
        exact .inr ⟨head, outcome, t₁, hslot, hwalk, hrest⟩

theorem runRule_fail {e : GenerateError}
    (h : s.runRule b type value chain (.fail e) t = some (result, t')) : result = .error e := by
  cases h
  rfl

/-- A rule that hands errors on goes on with the result of a slot, or stops with its error. -/
theorem attempt_bind_runRule {α β : Type} {w : Walk α} {text : α → β}
    {next : Except GenerateError β → Rule} (error : ∀ e, next (.error e) = .fail e) :
    (w.attempt >>= fun outcome => s.runRule b type value chain (next (outcome.map text))) =
      w >>= fun a => s.runRule b type value chain (next (.ok (text a))) := by
  funext t
  change (w.attempt).andThen _ t = w.andThen _ t
  unfold andThen attempt
  cases w t with
  | none => rfl
  | some out =>
      obtain ⟨outcome, t₁⟩ := out
      cases outcome with
      | error e =>
          change s.runRule b type value chain (next (.error e)) t₁ = _
          rw [error]
          rfl
      | ok a => rfl

theorem runRule_value_of_empty {bound : Bound} (hslot : b.inputs.get? slot = none) :
    s.runRule b type value chain (.value slot bound next) =
      s.runRule b type value chain (next (.ok (type.defaultFor slot))) := by
  simp only [runRule, hslot]

theorem runRule_value_of_filled {bound : Bound} {child : String}
    (hslot : b.inputs.get? slot = some child) (error : ∀ e, next (.error e) = .fail e) :
    s.runRule b type value chain (.value slot bound next) =
      value child >>= fun a =>
        s.runRule b type value chain (next (.ok (bound.enclose a.1 a.2))) := by
  simp only [runRule, hslot]
  exact attempt_bind_runRule error

theorem runRule_statements_of_empty (hslot : b.statements.get? slot = none) :
    s.runRule b type value chain (.statements slot next) =
      s.runRule b type value chain (next (.ok "")) := by
  simp only [runRule, hslot]

theorem runRule_statements_of_filled {head : String} (hslot : b.statements.get? slot = some head)
    (error : ∀ e, next (.error e) = .fail e) :
    s.runRule b type value chain (.statements slot next) =
      chain head >>= fun body =>
        s.runRule b type value chain (next (.ok (Text.indent s.indentWidth body))) := by
  simp only [runRule, hslot]
  exact attempt_bind_runRule error

end RunRule

/-- The references that a block in a role follows are the filled slots of its rule, and in a chain
the next block. -/
theorem edge_iff {role : Role} {id : String} {links : List Link}
    (hlookup : s.lookup id = .ok (b, type)) (hvisits : (type.rule b s.registries).Visits links)
    {link : Link} {child : String} :
    s.Edge role id link child ↔ (link, child) ∈ b.edges (role.links links) := by
  rw [Block.mem_edges]
  constructor
  · rintro ⟨b', type', hlookup', htarget, hfollows⟩
    rw [hlookup] at hlookup'
    cases hlookup'
    refine ⟨?_, htarget⟩
    rcases hfollows with ⟨rfl, rfl⟩ | hasks
    · simp [Role.links]
    · cases role <;> simp [Role.links, (hvisits.asks_iff link).1 hasks]
  · rintro ⟨hmem, htarget⟩
    refine ⟨b, type, hlookup, htarget, ?_⟩
    cases role with
    | value => exact .inr ((hvisits.asks_iff link).2 hmem)
    | chain =>
        rcases List.mem_append.1 hmem with hmem | hmem
        · exact .inr ((hvisits.asks_iff link).2 hmem)
        · exact .inl ⟨List.mem_singleton.1 hmem, rfl⟩

variable {render : Block → BlockType → Walk Phrase} {id : String} {rest : List String}

/-- A free and known block is rendered as an expression inside the ones that are pending. -/
theorem walkValue_of_free (hfree : t.holds id = false) (hlookup : s.lookup id = .ok (b, type)) :
    s.walkValue render id t = (render b type (t.enter id)).map fun out =>
      (out.1.map fun phrase => (phrase.code, phrase.precedence), out.2.leave) := by
  have hcheck : checkFree id t = some (.ok (), t) := checkFree_eq_ok.2 ⟨hfree, rfl⟩
  change (checkFree id).andThen _ t = _
  rw [andThen, hcheck]
  change (result (s.lookup id)).andThen _ t = _
  rw [andThen, hlookup]
  change ((render b type).inside id).andThen _ t = _
  rw [andThen, inside]
  cases render b type (t.enter id) with
  | none => rfl
  | some out =>
      obtain ⟨outcome, t₁⟩ := out
      cases outcome with
      | error e => rfl
      | ok phrase => rfl

/-- A free and known block is placed before it is rendered as a statement. -/
theorem walkBlocks_of_free (hfree : t.holds id = false)
    (hlookup : s.lookup id = .ok (b, type)) :
    s.walkBlocks render (id :: rest) t =
      (render b type >>= fun phrase => s.walkBlocks render rest >>= fun codes =>
        pure (consText phrase.code codes)) (t.place id) := by
  have hplace : Walk.place id t = some (.ok (), t.place id) := place_eq_ok.2 ⟨hfree, rfl⟩
  change (Walk.place id).andThen _ t = _
  rw [andThen, hplace]
  change (result (s.lookup id)).andThen _ (t.place id) = _
  rw [andThen, hlookup]
  rfl

theorem walkValue_of_held (hheld : t.holds id = true) :
    s.walkValue render id t = some (.error (.cyclicGraph id), t) := by
  change (checkFree id).andThen _ t = _
  rw [andThen, checkFree, if_pos hheld]

theorem walkValue_of_unknown {e : GenerateError} (hfree : t.holds id = false)
    (hlookup : s.lookup id = .error e) : s.walkValue render id t = some (.error e, t) := by
  have hcheck : checkFree id t = some (.ok (), t) := checkFree_eq_ok.2 ⟨hfree, rfl⟩
  change (checkFree id).andThen _ t = _
  rw [andThen, hcheck]
  change (result (s.lookup id)).andThen _ t = _
  rw [andThen, hlookup]
  rfl

theorem walkBlocks_of_held (hheld : t.holds id = true) :
    s.walkBlocks render (id :: rest) t = some (.error (.cyclicGraph id), t) := by
  change ((checkFree id).andThen _ : Walk Unit).andThen _ t = _
  simp only [andThen, checkFree, if_pos hheld]

/-- A block that is not known has been placed when the walk fails. -/
theorem walkBlocks_of_unknown {e : GenerateError} (hfree : t.holds id = false)
    (hlookup : s.lookup id = .error e) :
    s.walkBlocks render (id :: rest) t = some (.error e, t.place id) := by
  have hplace : Walk.place id t = some (.ok (), t.place id) := place_eq_ok.2 ⟨hfree, rfl⟩
  change (Walk.place id).andThen _ t = _
  rw [andThen, hplace]
  change (result (s.lookup id)).andThen _ (t.place id) = _
  rw [andThen, hlookup]
  rfl

theorem free_of_walkValue {a : String × Precedence}
    (h : s.walkValue render id t = some (.ok a, t')) :
    t.holds id = false ∧ ∃ b type, s.lookup id = .ok (b, type) := by
  obtain ⟨⟨⟩, t₁, hcheck, hrest⟩ := bind_eq_ok.1 h
  obtain ⟨hfree, rfl⟩ := checkFree_eq_ok.1 hcheck
  obtain ⟨found, t₂, hfound, -⟩ := bind_eq_ok.1 hrest
  exact ⟨hfree, found.1, found.2, (result_eq_some.1 hfound).1⟩

theorem free_of_walkBlocks {codes : List String}
    (h : s.walkBlocks render (id :: rest) t = some (.ok codes, t')) :
    t.holds id = false ∧ ∃ b type, s.lookup id = .ok (b, type) := by
  obtain ⟨⟨⟩, t₁, hplace, hrest⟩ := bind_eq_ok.1 h
  obtain ⟨hfree, rfl⟩ := place_eq_ok.1 hplace
  obtain ⟨found, t₂, hfound, -⟩ := bind_eq_ok.1 hrest
  exact ⟨hfree, found.1, found.2, (result_eq_some.1 hfound).1⟩

/-- An expression that was walked well was free and known, and its text is that of its block. -/
theorem walkValue_eq_ok {a : String × Precedence}
    (h : s.walkValue render id t = some (.ok a, t')) :
    ∃ b type phrase t₁, t.holds id = false ∧ s.lookup id = .ok (b, type) ∧
      render b type (t.enter id) = some (.ok phrase, t₁) ∧ t' = t₁.leave ∧
      a = (phrase.code, phrase.precedence) := by
  obtain ⟨hfree, b, type, hlookup⟩ := free_of_walkValue h
  rw [walkValue_of_free hfree hlookup, Option.map_eq_some_iff] at h
  obtain ⟨⟨outcome, t₁⟩, hrender, heq⟩ := h
  cases outcome with
  | error e => cases heq
  | ok phrase =>
      cases heq
      exact ⟨b, type, phrase, t₁, hfree, hlookup, hrender, rfl, rfl⟩

/-- Blocks that were walked well: the first was free and known, and the others came after it. -/
theorem walkBlocks_cons_eq_ok {codes : List String}
    (h : s.walkBlocks render (id :: rest) t = some (.ok codes, t')) :
    ∃ b type phrase t₁ codes', t.holds id = false ∧ s.lookup id = .ok (b, type) ∧
      render b type (t.place id) = some (.ok phrase, t₁) ∧
      s.walkBlocks render rest t₁ = some (.ok codes', t') ∧
      codes = consText phrase.code codes' := by
  obtain ⟨hfree, b, type, hlookup⟩ := free_of_walkBlocks h
  rw [walkBlocks_of_free hfree hlookup] at h
  obtain ⟨phrase, t₁, hrender, h⟩ := bind_eq_ok.1 h
  obtain ⟨codes', t₂, hrest, h⟩ := bind_eq_ok.1 h
  cases h
  exact ⟨b, type, phrase, t₁, codes', hfree, hlookup, hrender, hrest, rfl⟩

theorem walkChain_eq_ok {head code : String}
    (h : s.walkChain render head t = some (.ok code, t')) :
    ∃ codes, s.walkBlocks render (s.workspace.chainIds head) t = some (.ok codes, t') ∧
      code = "\n".intercalate codes := by
  obtain ⟨codes, t₁, hblocks, h⟩ := bind_eq_ok.1 h
  cases h
  exact ⟨codes, hblocks, rfl⟩

end Surroundings

end AgentBlocks
