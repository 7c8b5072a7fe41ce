import AgentBlocks.Catalog.Standard
import AgentBlocks.Proofs.Walk.Route

/-!
The slots of the standard block types. What fields and registries decide is only the wording of a
block, never which slots are asked for.
-/
namespace AgentBlocks

/-- The slots that the template of a design asks for with nothing filled in. -/
def Design.links (d : Design) : List Link := (d.template (.new d.name) .empty).links

theorem Template.links_word (s : String) : (word s).links = [] := rfl

namespace Standard

theorem links_template : ∀ d ∈ designs, ∀ b r, (d.template b r).links = d.links := by
  simp only [designs, literalBlocks, operatorBlocks, agentSetBlocks, variableBlocks, controlBlocks,
    procedureBlocks, agentCommandBlocks, turtleBlocks, List.forall_mem_append, List.forall_mem_cons]
  repeat' apply And.intro
  -- the text of a word need not be computed
  all_goals first | exact fun _ _ => Template.links_word _ | exact fun _ _ => rfl | exact nofun

theorem nodup_links : ∀ d ∈ designs, d.links.Nodup := by decide +kernel

theorem type?_standard (name : String) :
    Catalog.standard.type? name = (designs.find? (·.name == name)).map Design.blockType := by
  have hempty : Catalog.empty.type? name = none := rfl
  rw [Catalog.standard, Catalog.type?_registerAll, hempty, Option.none_or, List.find?_map]
  rfl

/-- A standard type is that of a design. -/
theorem exists_design {name : String} {type : BlockType}
    (h : Catalog.standard.type? name = some type) :
    ∃ d ∈ designs, d.blockType = type := by
  rw [type?_standard] at h
  obtain ⟨d, hfind, rfl⟩ := Option.map_eq_some_iff.1 h
  exact ⟨d, List.mem_of_find?_eq_some hfind, rfl⟩

end Standard

theorem Catalog.steady_standard : Catalog.standard.Steady := by
  intro name type h
  obtain ⟨d, hd, rfl⟩ := Standard.exists_design h
  refine ⟨d.links, Standard.nodup_links d hd, fun b r => ?_⟩
  rw [← Standard.links_template d hd b r]
  exact (d.template b r).visits_rule

end AgentBlocks
