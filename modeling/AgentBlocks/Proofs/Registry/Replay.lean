import AgentBlocks.Proofs.Registry.Persistence

/-!
Replayed snapshots. The entries of a snapshot are checked one after the other, each against those
before it, and yet they are accepted exactly when they fit together as a whole, in whatever order
they stand.
-/
namespace AgentBlocks

open Text

namespace Registries

variable {r r' : Registries}

theorem replayed_eq_ok {change : Change} :
    (·.1) <$> change = .ok r' ↔ ∃ events, change = .ok (r', events) := by
  cases change with
  | error e =>
      constructor
      · intro h
        cases h
      · rintro ⟨events, h⟩
        cases h
  | ok changed =>
      constructor
      · intro h
        cases h
        exact ⟨changed.2, rfl⟩
      · rintro ⟨events, h⟩
        cases h
        rfl

/-- Breeds that are accepted one after the other stand behind those before them. -/
theorem eq_of_foldlM_addBreed {breeds : List Breed}
    (h : breeds.foldlM (fun r b => (·.1) <$> r.addBreed b.plural b.singular b.kind) r = .ok r') :
    r' = ⟨r.breeds ++ breeds.map Breed.declaration, r.vars⟩ := by
  induction breeds generalizing r with
  | nil =>
      cases h
      rw [List.map_nil, List.append_nil]
  | cons b rest ih =>
      rw [List.foldlM_cons] at h
      obtain ⟨r₁, hfirst, hrest⟩ := except_bind_eq_ok.1 h
      obtain ⟨events, hadded⟩ := replayed_eq_ok.1 hfirst
      obtain ⟨-, -, rfl, -⟩ := addBreed_eq_ok hadded
      rw [ih hrest, List.append_assoc]
      rfl

/-- Variables that are accepted one after the other keep their names, and their scopes are all
resolved by the same breeds. -/
theorem eq_of_foldlM_addVariable {vars : List Variable}
    (h : vars.foldlM (fun r v => (·.1) <$> r.addVariable v.name v.scope) r = .ok r') :
    ∃ declared, r' = ⟨r.breeds, r.vars ++ declared⟩ ∧
      declared.map (·.name) = vars.map (·.name) ∧
      ∀ v ∈ vars, ∃ scope, r.resolveScope v.scope = .ok scope := by
  induction vars generalizing r with
  | nil =>
      cases h
      exact ⟨[], by rw [List.append_nil], rfl, nofun⟩
  | cons v rest ih =>
      rw [List.foldlM_cons] at h
      obtain ⟨r₁, hfirst, hrest⟩ := except_bind_eq_ok.1 h
      obtain ⟨events, hadded⟩ := replayed_eq_ok.1 hfirst
      obtain ⟨scope, -, hscope, rfl, -⟩ := addVariable_eq_ok hadded
      obtain ⟨declared, rfl, hnames, hscopes⟩ := ih hrest
      refine ⟨⟨v.name, scope⟩ :: declared, ?_, ?_,
        List.forall_mem_cons.2 ⟨⟨scope, hscope⟩, hscopes⟩⟩
      · rw [List.append_assoc]
        rfl
      · rw [List.map_cons, List.map_cons, hnames]

/-- An owner that is resolved is the plural of a declared breed. -/
theorem exists_breed_of_resolveScope {owner : String} {scope : Scope}
    (h : r.resolveScope (.breed owner) = .ok scope) :
    ∃ b ∈ r.customBreeds, fold b.plural = fold owner := by
  simp only [resolveScope] at h
  split at h
  · cases h
  · rename_i b hfound
    have hb := List.find?_some hfound
    rw [Bool.and_eq_true] at hb
    exact ⟨b, List.mem_filter.2 ⟨List.mem_of_find?_eq_some hfound, hb.1⟩, sameName_iff.1 hb.2⟩

/-- Accepted entries fit together: what they declare is coherent, with the same names. -/
theorem consistent_of_ofSnapshot {s : Snapshot} (h : ofSnapshot s = .ok r) : s.Consistent := by
  have hr := coherent_ofSnapshot h
  obtain ⟨r₁, hbreeds, hvars⟩ := except_bind_eq_ok.1 h
  obtain rfl := eq_of_foldlM_addBreed hbreeds
  obtain ⟨declared, rfl, hnames, hscopes⟩ := eq_of_foldlM_addVariable hvars
  have hcustom : ∀ vars, customBreeds ⟨builtinBreeds ++ s.breeds.map Breed.declaration, vars⟩ =
      s.breeds.map Breed.declaration := by
    refine customBreeds_append fun b hb => ?_
    obtain ⟨b', -, rfl⟩ := List.mem_map.1 hb
    rfl
  have hdeclared : ∀ b ∈ s.breeds, b.declaration.Declared := by
    intro b hb
    refine hr.breeds _ ?_
    rw [empty, hcustom]
    exact List.mem_map_of_mem hb
  refine ⟨fun b hb => (hdeclared b hb).kind, fun b hb => ?_, fun v hv => ?_, ?_, ?_⟩
  · exact ⟨(hdeclared b hb).plural, (hdeclared b hb).singular⟩
  · have hmem : v.name ∈ declared.map (·.name) := hnames ▸ List.mem_map_of_mem hv
    obtain ⟨v', hv', hname⟩ := List.mem_map.1 hmem
    exact hname ▸ hr.vars v' hv'
  · have hdistinct := hr.distinct
    simpa [names, hnames, empty, Breed.declaration, Function.comp_def, List.flatMap_map]
      using hdistinct
  · intro v hv owner howner
    obtain ⟨scope, hscope⟩ := hscopes v hv
    rw [howner] at hscope
    obtain ⟨b, hb, hsame⟩ := exists_breed_of_resolveScope hscope
    rw [empty, hcustom] at hb
    obtain ⟨b', hb', rfl⟩ := List.mem_map.1 hb
    exact ⟨b', hb', hsame⟩

theorem ofSnapshot_eq_ok_iff {s : Snapshot} :
    ofSnapshot s = .ok r ↔ s.Consistent ∧ r = declaring s := by
  constructor
  · intro h
    have hs := consistent_of_ofSnapshot h
    rw [ofSnapshot_of_consistent hs] at h
    cases h
    exact ⟨hs, rfl⟩
  · rintro ⟨hs, rfl⟩
    exact ofSnapshot_of_consistent hs

theorem restore_isOk_iff (r : Registries) (s : Snapshot) :
    (∃ out, r.restore s = .ok out) ↔ s.Consistent := by
  constructor
  · rintro ⟨⟨r', events⟩, h⟩
    exact (ofSnapshot_eq_ok_iff.1 (restore_eq_ok h).1).1
  · intro hs
    rw [restore, ofSnapshot_of_consistent hs]
    exact ⟨_, rfl⟩

end Registries

namespace Snapshot

variable {s s' : Snapshot}

/-- A plural belongs to one breed of a consistent snapshot. -/
theorem Consistent.eq_of_plural (hs : s.Consistent) {b c : Breed} (hb : b ∈ s.breeds)
    (hc : c ∈ s.breeds) (hsame : fold b.plural = fold c.plural) : b = c := by
  have hsub : (s.breeds.map (·.plural)).Sublist
      (Registries.names ⟨Registries.builtinBreeds ++ s.breeds, s.vars⟩) :=
    ((List.sublist_append_right _ _).map _).trans (Registries.plurals_sublist _ _)
  have hnodup := hs.distinct.sublist (hsub.map fold)
  rw [List.map_map] at hnodup
  exact List.inj_on_of_nodup_map hnodup hb hc hsame

/-- An owner is spelled as the one breed that has the plural. -/
theorem Consistent.spelledBy_eq (hs : s.Consistent) {b : Breed} (hb : b ∈ s.breeds)
    {owner : String} (hsame : fold b.plural = fold owner) :
    (Scope.breed owner).spelledBy s.breeds = .breed b.plural := by
  have hfound : (s.breeds.find? fun b => sameName b.plural owner).isSome :=
    List.find?_isSome.2 ⟨b, hb, sameName_iff.2 hsame⟩
  obtain ⟨c, hc⟩ := Option.isSome_iff_exists.1 hfound
  have hfold := List.find?_some hc
  have hcsame : fold c.plural = fold owner := sameName_iff.1 hfold
  obtain rfl := hs.eq_of_plural (List.mem_of_find?_eq_some hc) hb (hcsame.trans hsame.symm)
  simp only [Scope.spelledBy, hc]

/-- Whether entries fit together does not depend on their order. -/
theorem Consistent.perm (hs : s.Consistent) (hbreeds : s'.breeds.Perm s.breeds)
    (hvars : s'.vars.Perm s.vars) : s'.Consistent := by
  refine ⟨fun b hb => hs.kinds b (hbreeds.mem_iff.1 hb),
    fun b hb => hs.breeds b (hbreeds.mem_iff.1 hb), fun v hv => hs.vars v (hvars.mem_iff.1 hv), ?_,
    fun v hv owner howner => ?_⟩
  · have hnames : (Registries.names ⟨Registries.builtinBreeds ++ s'.breeds, s'.vars⟩).Perm
        (Registries.names ⟨Registries.builtinBreeds ++ s.breeds, s.vars⟩) :=
      ((hbreeds.append_left _).flatMap_right _).append (hvars.map _)
    exact (hnames.map fold).nodup_iff.2 hs.distinct
  · obtain ⟨b, hb, hsame⟩ := hs.owners v (hvars.mem_iff.1 hv) owner howner
    exact ⟨b, hbreeds.mem_iff.2 hb, hsame⟩

end Snapshot

namespace Registries

/-- A snapshot is restored exactly when its entries fit together beside the built-in breeds, in
whatever order they stand, and then it replaces everything: the built-in breeds are followed by its
breeds, and its variables spell their owners as its breeds do. -/
theorem restore_accepts_consistent (r : Registries) (s : Snapshot) :
    ((∃ out, r.restore s = .ok out) ↔ s.Consistent) ∧
      (∀ r' events, r.restore s = .ok (r', events) →
        r' = ⟨builtinBreeds ++ s.breeds.map Breed.declaration,
          s.vars.map (Variable.spelledBy s.breeds)⟩ ∧
        events = [.reset] ∧
        ∀ v ∈ s.vars, ∀ owner, v.scope = .breed owner →
          ∃! b, b ∈ s.breeds ∧ fold b.plural = fold owner ∧
            v.spelledBy s.breeds = ⟨v.name, .breed b.plural⟩) ∧
      ∀ s' : Snapshot, s'.breeds.Perm s.breeds → s'.vars.Perm s.vars →
        ((∃ out, r.restore s' = .ok out) ↔ ∃ out, r.restore s = .ok out) := by
  refine ⟨restore_isOk_iff r s, ?_, ?_⟩
  · intro r' events h
    obtain ⟨hrestored, rfl⟩ := restore_eq_ok h
    obtain ⟨hs, rfl⟩ := ofSnapshot_eq_ok_iff.1 hrestored
    refine ⟨rfl, rfl, fun v hv owner howner => ?_⟩
    obtain ⟨b, hb, hsame⟩ := hs.owners v hv owner howner
    have hspelled : v.spelledBy s.breeds = ⟨v.name, .breed b.plural⟩ := by
      rw [Variable.spelledBy, howner, hs.spelledBy_eq hb hsame]
    refine ⟨b, ⟨hb, hsame, hspelled⟩, ?_⟩
    rintro c ⟨hc, hcsame, -⟩
    exact hs.eq_of_plural hc hb (hcsame.trans hsame.symm)
  · intro s' hbreeds hvars
    rw [restore_isOk_iff, restore_isOk_iff]
    exact ⟨fun hs' => hs'.perm hbreeds.symm hvars.symm, fun hs => hs.perm hbreeds hvars⟩

end Registries

end AgentBlocks
