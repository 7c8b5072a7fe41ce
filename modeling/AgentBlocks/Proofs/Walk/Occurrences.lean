import AgentBlocks.Proofs.Walk.Locality
import AgentBlocks.Proofs.Walk.Totality

/-!
The occurrences of blocks in a program. An expression that several slots share is translated once
for each of them, so an occurrence is a block with the references that lead to it. The occurrences
below a block are those below each of its references.
-/
namespace AgentBlocks

/-- A block in its role, at the end of the references that lead to it. -/
structure Occurrence where
  steps : List (Link × String)
  role : Role
  id : String

/-- The list has the occurrences with the property, each of them once. -/
structure Lists (os : List Occurrence) (p : Occurrence → Prop) : Prop where
  nodup : os.Nodup
  mem_iff : ∀ o, o ∈ os ↔ p o

def Occurrence.after (edge : Link × String) (o : Occurrence) : Occurrence :=
  { o with steps := edge :: o.steps }

theorem Lists.congr {os : List Occurrence} {p q : Occurrence → Prop} (h : Lists os p)
    (hiff : ∀ o, p o ↔ q o) : Lists os q :=
  ⟨h.nodup, fun o => (h.mem_iff o).trans (hiff o)⟩

namespace Surroundings

/-- What occurs in the text of the block in its role, the block itself included. -/
def OccursFrom (s : Surroundings) (role : Role) (id : String) (o : Occurrence) : Prop :=
  s.Route role id o.steps o.role o.id

/-- What occurs in the texts of the slots of a block. -/
def OccursInside (s : Surroundings) (id : String) (o : Occurrence) : Prop :=
  o.steps ≠ [] ∧ s.OccursFrom .value id o

/-- What occurs in the texts of the references. -/
def OccursAt (s : Surroundings) (edges : List (Link × String)) (o : Occurrence) : Prop :=
  ∃ e ∈ edges, ∃ o', s.OccursFrom e.1.role e.2 o' ∧ o = o'.after e

/-- What occurs in the program. -/
def Occurs (s : Surroundings) : Occurrence → Prop :=
  s.OccursAt (s.workspace.topLevelIds.map (.next, ·))

variable {s : Surroundings} {role : Role} {id child : String} {link : Link} {b : Block}
  {type : BlockType} {edges edges' : List (Link × String)} {links : List Link}
  {o : Occurrence} {os os' : List Occurrence}

theorem lists_nil : Lists [] (s.OccursAt []) :=
  ⟨.nil, fun _ => iff_of_false List.not_mem_nil fun ⟨_, he, _⟩ => List.not_mem_nil he⟩

theorem lists_after (h : Lists os (s.OccursFrom link.role child)) :
    Lists (os.map (.after (link, child))) (s.OccursAt [(link, child)]) := by
  refine ⟨h.nodup.map ?_, fun o => ?_⟩
  · rintro ⟨steps, role, id⟩ ⟨steps', role', id'⟩ heq
    cases heq
    rfl
  · simp only [List.mem_map, OccursAt, List.mem_singleton, exists_eq_left, h.mem_iff, eq_comm]

/-- Different references lead to different occurrences. -/
theorem lists_append (h : Lists os (s.OccursAt edges)) (h' : Lists os' (s.OccursAt edges'))
    (hnodup : (edges ++ edges').Nodup) : Lists (os ++ os') (s.OccursAt (edges ++ edges')) := by
  refine ⟨h.nodup.append h'.nodup fun o ho ho' => ?_, fun o => ?_⟩
  · obtain ⟨e, he, o₁, -, rfl⟩ := (h.mem_iff o).1 ho
    obtain ⟨e', he', o₂, -, heq⟩ := (h'.mem_iff _).1 ho'
    obtain rfl : e = e' := (List.cons.inj (congrArg Occurrence.steps heq)).1
    exact (List.nodup_append.1 hnodup).2.2 e he e he' rfl
  · rw [List.mem_append, h.mem_iff, h'.mem_iff]
    simp [OccursAt, or_and_right, exists_or]

/-- The occurrences from a block are its own and those of its references. -/
theorem occursFrom_iff (hlookup : s.lookup id = .ok (b, type))
    (hvisits : (type.rule b s.registries).Visits links) : s.OccursFrom role id o ↔
      o = ⟨[], role, id⟩ ∨ s.OccursAt (b.edges (role.links links)) o := by
  obtain ⟨steps, role', id'⟩ := o
  constructor
  · intro hroute
    cases hroute with
    | stop => exact .inl rfl
    | step hedge hrest => exact .inr ⟨_, (edge_iff hlookup hvisits).1 hedge, ⟨_, _, _⟩, hrest, rfl⟩
  · rintro (heq | ⟨e, he, o, hroute, heq⟩)
    · cases heq
      exact .stop role id
    · cases heq
      exact .step ((edge_iff hlookup hvisits).2 he) hroute

theorem occursInside_iff (hlookup : s.lookup id = .ok (b, type))
    (hvisits : (type.rule b s.registries).Visits links) :
    s.OccursInside id o ↔ s.OccursAt (b.edges links) o := by
  rw [OccursInside, occursFrom_iff hlookup hvisits]
  constructor
  · rintro ⟨hne, rfl | h⟩
    · exact absurd rfl hne
    · exact h
  · rintro ⟨e, he, o, hroute, rfl⟩
    exact ⟨List.cons_ne_nil e o.steps, .inr ⟨e, he, o, hroute, rfl⟩⟩

theorem lists_cons (hlookup : s.lookup id = .ok (b, type))
    (hvisits : (type.rule b s.registries).Visits links)
    (h : Lists os (s.OccursAt (b.edges (role.links links)))) :
    Lists (⟨[], role, id⟩ :: os) (s.OccursFrom role id) := by
  refine ⟨List.nodup_cons.2 ⟨fun hmem => ?_, h.nodup⟩, fun o => ?_⟩
  · obtain ⟨e, -, o, -, heq⟩ := (h.mem_iff _).1 hmem
    cases heq
  · rw [List.mem_cons, h.mem_iff, occursFrom_iff hlookup hvisits]

/-- The occurrences along a chain are its first block, what is in the slots of this block, and what
occurs in the rest. -/
theorem lists_chain (hsteady : s.catalog.Steady) (hlookup : s.lookup id = .ok (b, type))
    (h : Lists os (s.OccursInside id)) (h' : Lists os' (s.OccursAt (b.edges [.next]))) :
    Lists (⟨[], .chain, id⟩ :: (os ++ os')) (s.OccursFrom .chain id) := by
  obtain ⟨links, hnodup, hvisits⟩ := hsteady _ _ (s.lookup_eq_ok.1 hlookup).2
  have hlinks : b.edges (Role.chain.links links) = b.edges links ++ b.edges [.next] :=
    b.edges_append links [.next]
  have hedges := nodup_edges b .chain (hvisits b s.registries) hnodup
  rw [hlinks] at hedges
  have hinside := h.congr fun o => occursInside_iff hlookup (hvisits b s.registries)
  exact lists_cons hlookup (hvisits b s.registries) (hlinks ▸ lists_append hinside h' hedges)

end Surroundings

end AgentBlocks
