import AgentBlocks.Program.Walk
import AgentBlocks.Catalog.Template
import Mathlib.Data.List.Basic

/-!
Routes through a block graph: the references that a block follows, in the role in which it is
reached, and the walks that start at the top-level blocks.
-/
namespace AgentBlocks

/-- How a block is reached: as a statement of a chain or as an expression. -/
inductive Role where
  | chain
  | value
deriving DecidableEq

inductive Link where
  | next
  | body (slot : String)
  | input (slot : String)
deriving DecidableEq

def Link.role : Link → Role
  | .next | .body _ => .chain
  | .input _ => .value

def Block.target? (b : Block) : Link → Option String
  | .next => b.next
  | .body slot => b.statements.get? slot
  | .input slot => b.inputs.get? slot

namespace Rule

/-- The rule asks for a slot, after some answers or other. -/
inductive Asks : Rule → Link → Prop
  | value {slot bound next} : Asks (.value slot bound next) (.input slot)
  | body {slot next} : Asks (.statements slot next) (.body slot)
  | afterValue {slot bound next link} (answer) : Asks (next answer) link →
      Asks (.value slot bound next) link
  | afterBody {slot next link} (answer) : Asks (next answer) link →
      Asks (.statements slot next) link

/-- The rule asks for the slots one after the other, whatever the answers are, hands every error
on and ends with a phrase. -/
inductive Visits : Rule → List Link → Prop
  | done (phrase : Phrase) : Visits (.done (.ok phrase)) []
  | value {slot bound next links} (error : ∀ e, next (.error e) = fail e)
      (ok : ∀ code, Visits (next (.ok code)) links) :
      Visits (.value slot bound next) (.input slot :: links)
  | body {slot next links} (error : ∀ e, next (.error e) = fail e)
      (ok : ∀ body, Visits (next (.ok body)) links) :
      Visits (.statements slot next) (.body slot :: links)

theorem not_asks_fail (e : GenerateError) (link : Link) : ¬(fail e).Asks link := by
  intro h
  cases h

theorem Visits.asks_iff {rule : Rule} {links : List Link} (h : rule.Visits links) (link : Link) :
    rule.Asks link ↔ link ∈ links := by
  induction h with
  | done phrase =>
      constructor
      · intro h
        cases h
      · intro h
        cases h
  | value error ok ih =>
      rw [List.mem_cons]
      constructor
      · intro h
        cases h with
        | value => exact .inl rfl
        | afterValue answer h =>
            cases answer with
            | error e => exact absurd (error e ▸ h) (not_asks_fail e link)
            | ok code => exact .inr ((ih code).1 h)
      · rintro (rfl | h)
        · exact .value
        · exact .afterValue (.ok "") ((ih "").2 h)
  | body error ok ih =>
      rw [List.mem_cons]
      constructor
      · intro h
        cases h with
        | body => exact .inl rfl
        | afterBody answer h =>
            cases answer with
            | error e => exact absurd (error e ▸ h) (not_asks_fail e link)
            | ok code => exact .inr ((ih code).1 h)
      · rintro (rfl | h)
        · exact .body
        · exact .afterBody (.ok "") ((ih "").2 h)

theorem not_asks_next {rule : Rule} : ¬rule.Asks .next := by
  intro h
  generalize hlink : Link.next = link at h
  induction h with
  | value => cases hlink
  | body => cases hlink
  | afterValue _ _ ih => exact ih hlink
  | afterBody _ _ ih => exact ih hlink

end Rule

/-- The slot that a piece asks for. -/
def Piece.link? : Piece → Option Link
  | .text _ => none
  | .value slot _ => some (.input slot)
  | .body slot _ => some (.body slot)

namespace Template

/-- The slots of a template, in the order of its text. -/
def links (t : Template) : List Link := t.pieces.filterMap Piece.link?

theorem visits_assemble (t : Template) (pieces : List Piece) (code : String) :
    (t.assemble pieces code).Visits (pieces.filterMap Piece.link?) := by
  induction pieces generalizing code with
  | nil => exact .done _
  | cons piece rest ih =>
      cases piece with
      | text s => exact ih _
      | value slot bound => exact .value (fun _ => rfl) fun child => ih _
      | body slot form => exact .body (fun _ => rfl) fun body => ih _

theorem visits_rule (t : Template) : t.rule.Visits t.links := t.visits_assemble t.pieces ""

end Template

/-- The slots that a rule of the catalog asks for depend on its type alone, and none is asked for
twice. -/
def Catalog.Steady (c : Catalog) : Prop :=
  ∀ name type, c.type? name = some type →
    ∃ links : List Link, links.Nodup ∧ ∀ b r, (type.rule b r).Visits links

namespace Surroundings

variable (s : Surroundings)

theorem lookup_eq_ok {id : String} {b : Block} {type : BlockType} :
    s.lookup id = .ok (b, type) ↔
      s.workspace.block? id = some b ∧ s.catalog.type? b.blockType = some type := by
  constructor
  · intro h
    unfold lookup at h
    split at h
    · cases h
    · rename_i b' hb
      split at h
      · cases h
      · rename_i type' htype
        cases h
        exact ⟨hb, htype⟩
  · rintro ⟨hb, htype⟩
    simp only [lookup, hb, htype]

/-- A block in a role follows a reference: the slots that its rule asks for, and in a chain also
the reference to the next block. -/
def Edge (role : Role) (id : String) (link : Link) (child : String) : Prop :=
  ∃ b type, s.lookup id = .ok (b, type) ∧ b.target? link = some child ∧
    ((link = .next ∧ role = .chain) ∨ (type.rule b s.registries).Asks link)

/-- A sequence of references that starts at a block in a role, each with the block that it leads
to, and the role and the block in which it ends. -/
inductive Route : Role → String → List (Link × String) → Role → String → Prop
  | stop (role : Role) (id : String) : Route role id [] role id
  | step {role id link child steps role' id'} : s.Edge role id link child →
      Route link.role child steps role' id' → Route role id ((link, child) :: steps) role' id'

def routeIds (id : String) (steps : List (Link × String)) : List String := id :: steps.map (·.2)

variable {s}

/-- Every id along a route is the end of a route. -/
theorem Route.of_mem {role role' : Role} {id id' x : String} {steps : List (Link × String)}
    (h : s.Route role id steps role' id') (hx : x ∈ routeIds id steps) :
    ∃ steps' role'', s.Route role id steps' role'' x := by
  induction h with
  | stop role id =>
      cases List.mem_singleton.1 hx
      exact ⟨[], role, .stop role x⟩
  | @step role id link child steps role' id' hedge hroute ih =>
      rcases List.mem_cons.1 hx with rfl | hx
      · exact ⟨[], role, .stop role x⟩
      · obtain ⟨steps', role'', hprefix⟩ := ih hx
        exact ⟨(link, child) :: steps', role'', .step hedge hprefix⟩

theorem Route.end_mem {role role' : Role} {id id' : String} {steps : List (Link × String)}
    (h : s.Route role id steps role' id') : id' ∈ routeIds id steps := by
  induction h with
  | stop role id => exact List.mem_cons_self
  | step _ _ ih => exact List.mem_cons_of_mem _ ih

variable (s)

/-- What is asked of the walks from the top-level blocks: they come to known blocks of known types
only, none comes to a block twice, and no two of them end at the same statement. -/
structure WellLinked : Prop where
  known : ∀ head ∈ s.workspace.topLevelIds, ∀ steps role id, s.Route .chain head steps role id →
    ∀ x ∈ routeIds head steps, ∃ b type,
      s.workspace.block? x = some b ∧ s.catalog.type? b.blockType = some type
  simple : ∀ head ∈ s.workspace.topLevelIds, ∀ steps role id,
    s.Route .chain head steps role id → (routeIds head steps).Nodup
  single : ∀ head₁ ∈ s.workspace.topLevelIds, ∀ head₂ ∈ s.workspace.topLevelIds,
    ∀ steps₁ steps₂ id, s.Route .chain head₁ steps₁ .chain id →
      s.Route .chain head₂ steps₂ .chain id → head₁ = head₂ ∧ steps₁ = steps₂

end Surroundings

end AgentBlocks
