import AgentBlocks.Proofs.Catalog.Slots

/-!
Pure catalogs: the rules hand every error on, and they depend on a block through its fields and its
filled slots alone, not on the ids of its neighbours.
-/
namespace AgentBlocks

/-- The blocks have the same type, the same fields and the same filled slots. -/
structure Block.Alike (b b' : Block) : Prop where
  blockType : b.blockType = b'.blockType
  fields : b.fields = b'.fields
  inputs : ∀ slot, b.hasInput slot = b'.hasInput slot
  statements : ∀ slot, b.statements.contains slot = b'.statements.contains slot

structure Catalog.Pure (c : Catalog) : Prop where
  handsOn : ∀ {name type}, c.type? name = some type → ∀ b r, (type.rule b r).HandsOn
  alike : ∀ {name type}, c.type? name = some type →
    ∀ {b b' : Block}, b.Alike b' → ∀ r, type.rule b r = type.rule b' r

namespace Standard

/-- The wording of a standard block depends on its fields and the registries. -/
theorem template_eq_of_fields :
    ∀ d ∈ designs, ∀ b b' r, b.fields = b'.fields → d.template b r = d.template b' r := by
  simp only [designs, literalBlocks, operatorBlocks, agentSetBlocks, variableBlocks, controlBlocks,
    procedureBlocks, agentCommandBlocks, turtleBlocks, List.forall_mem_append, List.forall_mem_cons]
  repeat' apply And.intro
  all_goals first
    | exact List.forall_mem_nil _
    | intro b b' r h
      cases b
      cases b'
      subst h
      rfl

end Standard

theorem Catalog.pure_standard : Catalog.standard.Pure := by
  refine ⟨?_, ?_⟩
  · intro name type h b r
    obtain ⟨d, -, rfl⟩ := Standard.exists_design h
    exact (d.template b r).handsOn_rule
  · intro name type h b b' halike r
    obtain ⟨d, hd, rfl⟩ := Standard.exists_design h
    exact congrArg Template.rule (Standard.template_eq_of_fields d hd b b' r halike.fields)

end AgentBlocks
