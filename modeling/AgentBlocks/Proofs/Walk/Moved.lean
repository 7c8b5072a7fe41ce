import AgentBlocks.Proofs.Walk.Expansion
import AgentBlocks.Proofs.Walk.Locality
import AgentBlocks.Proofs.Walk.SameRules

/-!
Graphs whose blocks are moved about. What a walk does is the same wherever the blocks are placed;
their places only order the chains. A graph that has a program and is moved has one with the same
chains in another order, or none when some statement is now walked before a chain in which it is
an expression.
-/
namespace AgentBlocks

/-- The block without a place. -/
def Block.unplaced (b : Block) : Block := { b with x := none, y := none }

/-- The graphs have the same blocks under the same ids, wherever these are placed. -/
def Workspace.Moved (w w' : Workspace) : Prop :=
  w'.blocks.entries.map (fun e => (e.1, e.2.unplaced)) =
    w.blocks.entries.map fun e => (e.1, e.2.unplaced)

instance (w w' : Workspace) : Decidable (w.Moved w') := inferInstanceAs (Decidable (_ = _))

theorem Block.alike_of_unplaced {b b' : Block} (h : b'.unplaced = b.unplaced) : b'.Alike b := by
  unfold unplaced at h
  injection h with htype hfields hinputs hstatements
  refine ⟨htype, hfields, fun slot => ?_, fun slot => ?_⟩
  · rw [hasInput, hinputs, hasInput]
  · rw [hstatements]

namespace Workspace.Moved

variable {w w' : Workspace}

theorem refl (w : Workspace) : w.Moved w := rfl

theorem size (h : w.Moved w') : w'.size = w.size := by
  simpa [Workspace.size, Dict.size] using congrArg List.length h

theorem block? (h : w.Moved w') (id : String) :
    (w'.block? id).map Block.unplaced = (w.block? id).map Block.unplaced := by
  have hfind : ∀ w : Workspace, (w.block? id).map Block.unplaced =
      ((w.blocks.entries.map fun e => (e.1, e.2.unplaced)).find? (·.1 == id)).map (·.2) := by
    intro w
    simp [Workspace.block?, Dict.get?, List.find?_map, Function.comp_def]
  rw [hfind, hfind, h]

theorem topLevelIds_perm (h : w.Moved w') : w.topLevelIds.Perm w'.topLevelIds := by
  have hids : ∀ w : Workspace, (w.blocks.entries.filter (·.2.topLevel)).map (·.1) =
      ((w.blocks.entries.map fun e => (e.1, e.2.unplaced)).filter (·.2.topLevel)).map (·.1) := by
    intro w
    simp [List.filter_map, Function.comp_def, Block.unplaced]
  have hperm := w'.topLevelIds_perm
  rw [hids, h, ← hids] at hperm
  exact w.topLevelIds_perm.trans hperm.symm

end Workspace.Moved

namespace Surroundings

variable {s : Surroundings} {w' : Workspace}

theorem SameRules.of_moved (hc : s.catalog.Pure) (hw : s.workspace.Moved w') :
    s.SameRules w' := by
  refine ⟨hw.size, fun id => ?_⟩
  have hblock := hw.block? id
  cases hb : s.workspace.block? id with
  | none =>
      rw [hb, Option.map_none, Option.map_eq_none_iff] at hblock
      rw [hblock]
      exact .none
  | some b =>
      rw [hb, Option.map_some, Option.map_eq_some_iff] at hblock
      obtain ⟨b', hb', hsame⟩ := hblock
      have halike := Block.alike_of_unplaced hsame
      rw [hb']
      refine .some ⟨⟨halike.blockType, (congrArg Block.inputs hsame :),
        (congrArg Block.statements hsame :), (congrArg Block.next hsame :)⟩, fun type htype => ?_⟩
      exact hc.alike htype halike s.registries

/-- No statement reached from the first block is an expression reached from the second one. -/
def Apart (s : Surroundings) (head₁ head₂ : String) : Prop :=
  ∀ id, s.Reached head₁ .chain id → ¬s.Reached head₂ .value id

/-- Among the top-level blocks of a well linked graph, where no two reach the same statement. -/
theorem WellLinked.pairwise_disjoint_iff (hlinked : s.WellLinked) {heads : List String}
    (hheads : ∀ head ∈ heads, head ∈ s.workspace.topLevelIds) (hnodup : heads.Nodup) :
    heads.Pairwise s.Disjoint ↔ heads.Pairwise s.Apart := by
  constructor
  · exact fun h => h.imp fun hdisjoint id => hdisjoint .value id
  · intro h
    refine (h.and hnodup).imp_of_mem fun {head₁ head₂} h₁ h₂ hapart role id => ?_
    cases role with
    | value => exact hapart.1 id
    | chain =>
        rintro ⟨steps₁, hroute₁⟩ ⟨steps₂, hroute₂⟩
        exact hapart.2 (hlinked.single head₁ (hheads head₁ h₁) head₂ (hheads head₂ h₂) steps₁ steps₂
          id hroute₁ hroute₂).1

end Surroundings

section Generate

variable {c : Catalog} {w w' : Workspace} {options : GenerateOptions} {r : Registries}
  {text text' : String}

/-- A program of the moved graph comes from a walk over the graph as it was, with the chains in
their new order. -/
theorem generate_moved_eq_map (hpure : c.Pure) (hw : w.Moved w') (options : GenerateOptions)
    (r : Registries) :
    ∃ outcome t,
      Surroundings.walkHeads ⟨c, w, r, options.indentWidth⟩ w.size w'.topLevelIds .start =
        some (outcome, t) ∧
      generate c options w' r = outcome.map fun chains => "\n\n".intercalate
        ((if options.includeDeclarations then r.declarations else []) ++ chains) := by
  obtain ⟨outcome, t, hwalk, heq⟩ := generate_eq_map c options w' r
  have hsame : Surroundings.SameRules ⟨c, w, r, options.indentWidth⟩ w' := .of_moved hpure hw
  rw [Surroundings.walkHeads_of_sameRules hsame, hw.size] at hwalk
  exact ⟨outcome, t, hwalk, heq⟩

theorem walkHeads_of_generate_moved (hpure : c.Pure) (hw : w.Moved w')
    (h : generate c options w' r = .ok text) :
    ∃ codes t, Surroundings.walkHeads ⟨c, w, r, options.indentWidth⟩ w.size w'.topLevelIds .start =
        some (.ok codes, t) ∧
      text = "\n\n".intercalate
        ((if options.includeDeclarations then r.declarations else []) ++ codes) := by
  obtain ⟨outcome, t, hwalk, heq⟩ := generate_moved_eq_map hpure hw options r
  rw [h] at heq
  cases outcome with
  | error e => cases heq
  | ok codes =>
      cases heq
      exact ⟨codes, t, hwalk, rfl⟩

theorem exists_generate_moved_iff (hsteady : c.Steady) (hpure : c.Pure) (hw : w.Moved w')
    (h : generate c options w r = .ok text) :
    (∃ text', generate c options w' r = .ok text') ↔
      w'.topLevelIds.Pairwise (Surroundings.Apart ⟨c, w, r, options.indentWidth⟩) := by
  have hheads : w.topLevelIds.Perm w'.topLevelIds := hw.topLevelIds_perm
  have hnodup := hheads.nodup_iff.1 w.nodup_topLevelIds
  obtain ⟨codes, t, hwalk, -⟩ := walkHeads_of_generate_moved hpure (.refl w) h
  rw [← (hsteady.wellLinked h).pairwise_disjoint_iff (fun head => hheads.mem_iff.2) hnodup,
    ← Surroundings.walkHeads_perm hsteady hheads hwalk]
  constructor
  · rintro ⟨text', h'⟩
    obtain ⟨codes', t', hwalk', -⟩ := walkHeads_of_generate_moved hpure hw h'
    exact ⟨codes', t', hwalk'⟩
  · rintro ⟨codes', t', hok⟩
    obtain ⟨outcome, t'', hwalk', heq⟩ := generate_moved_eq_map hpure hw options r
    rw [hok] at hwalk'
    cases hwalk'
    exact ⟨_, heq⟩

theorem exists_perm_of_generate_moved (hpure : c.Pure) (hw : w.Moved w')
    (h : generate c options w r = .ok text) (h' : generate c options w' r = .ok text') :
    ∃ texts texts',
      List.Forall₂ (Surroundings.ExpandsChain ⟨c, w, r, options.indentWidth⟩) w.topLevelIds texts ∧
      List.Forall₂ (Surroundings.ExpandsChain ⟨c, w, r, options.indentWidth⟩) w'.topLevelIds
        texts' ∧
      texts.Perm texts' ∧
      text = "\n\n".intercalate ((if options.includeDeclarations then r.declarations else []) ++
        texts.filter (!·.isEmpty)) ∧
      text' = "\n\n".intercalate ((if options.includeDeclarations then r.declarations else []) ++
        texts'.filter (!·.isEmpty)) := by
  obtain ⟨codes, t, hwalk, rfl⟩ := walkHeads_of_generate_moved hpure (.refl w) h
  obtain ⟨codes', t', hwalk', rfl⟩ := walkHeads_of_generate_moved hpure hw h'
  obtain ⟨texts, htexts, rfl⟩ := Surroundings.expandsChain_of_walkHeads
    (s := ⟨c, w, r, options.indentWidth⟩) hpure (.refl w) hwalk
  obtain ⟨texts', htexts', rfl⟩ := Surroundings.expandsChain_of_walkHeads
    (s := ⟨c, w, r, options.indentWidth⟩) hpure (.refl w) hwalk'
  rw [List.map_id] at htexts htexts'
  have hunique : Relator.RightUnique
      (Surroundings.ExpandsChain ⟨c, w, r, options.indentWidth⟩) := fun _ _ _ h h' => h'.unique h
  have hperm := List.rel_perm_imp hunique htexts htexts' hw.topLevelIds_perm
  exact ⟨texts, texts', htexts, htexts', hperm, rfl, rfl⟩

/-- A graph that has a program and is moved has a program exactly when, in the new order, no
statement is walked before a chain in which it is an expression. Then the chains are the same, in
another order. -/
theorem generate_moved (hw : w.Moved w') (h : generate .standard options w r = .ok text) :
    let s : Surroundings := ⟨.standard, w, r, options.indentWidth⟩
    let declarations := if options.includeDeclarations then r.declarations else []
    ((∃ text', generate .standard options w' r = .ok text') ↔ w'.topLevelIds.Pairwise s.Apart) ∧
      ∀ text', generate .standard options w' r = .ok text' →
        ∃ texts texts', List.Forall₂ s.ExpandsChain w.topLevelIds texts ∧
          List.Forall₂ s.ExpandsChain w'.topLevelIds texts' ∧ texts.Perm texts' ∧
          text = "\n\n".intercalate (declarations ++ texts.filter (!·.isEmpty)) ∧
          text' = "\n\n".intercalate (declarations ++ texts'.filter (!·.isEmpty)) :=
  ⟨exists_generate_moved_iff Catalog.steady_standard Catalog.pure_standard hw h,
    fun _ h' => exists_perm_of_generate_moved Catalog.pure_standard hw h h'⟩

end Generate

/-- A statement with an expression in a slot. The expression is also a top-level block. -/
def showShared (y₁ y₂ : Int64) : Workspace :=
  Workspace.empty
    |>.insert "show" ((Block.new "output_show").withInput "VALUE" "ticks" |>.atTopLevel 0 y₁)
    |>.insert "ticks" (Block.new "observer_ticks" |>.atTopLevel 0 y₂)

theorem moved_showShared : (showShared 0 1).Moved (showShared 1 0) := by decide +kernel

theorem generate_showShared :
    generate .standard .default (showShared 0 1) .empty = .ok "show ticks\n\nticks" ∧
      generate .standard .default (showShared 1 0) .empty = .error (.cyclicGraph "ticks") := by
  decide +kernel

theorem generate_moved_showShared :
    (showShared 0 1).Moved (showShared 1 0) ∧
      generate .standard .default (showShared 0 1) .empty = .ok "show ticks\n\nticks" ∧
      ¬(showShared 1 0).topLevelIds.Pairwise
        (Surroundings.Apart ⟨.standard, showShared 0 1, .empty, 2⟩) := by
  obtain ⟨h, h'⟩ := generate_showShared
  refine ⟨moved_showShared, h, fun hapart => ?_⟩
  obtain ⟨text', hok⟩ := (generate_moved moved_showShared h).1.2 hapart
  rw [h'] at hok
  cases hok

/-- Whether there is a program does depend on the places: the expression may be walked as a
statement after it has been walked in the slot, and not before. -/
theorem not_generate_iff_of_moved :
    ¬∀ (w w' : Workspace) (r : Registries), w.Moved w' →
      ((∃ text, generate .standard .default w r = .ok text) ↔
        ∃ text, generate .standard .default w' r = .ok text) := by
  intro hclaim
  obtain ⟨h, h'⟩ := generate_showShared
  obtain ⟨text, htext⟩ := (hclaim _ _ .empty moved_showShared).1 ⟨_, h⟩
  rw [h'] at htext
  cases htext

end AgentBlocks
