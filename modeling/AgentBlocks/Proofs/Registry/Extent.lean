import AgentBlocks.Proofs.Registry.Declarations
import AgentBlocks.Proofs.Registry.Naming

/-!
How far an edit of a breed reaches. The variables that go with a breed are selected by its plural in
any case; in coherent registries these are the variables whose scope is the breed exactly, and all
else stays as it is and where it is.
-/
namespace AgentBlocks

open Text

theorem map_if_middle {α : Type} [DecidableEq α] {before after : List α} {a : α}
    (h : (before ++ a :: after).Nodup) (f : α → α) :
    (before ++ a :: after).map (fun c => if c = a then f c else c) = before ++ f a :: after := by
  obtain ⟨-, hafter, hbefore⟩ := List.nodup_append.1 h
  have hkept : ∀ l : List α, a ∉ l → l.map (fun c => if c = a then f c else c) = l := by
    intro l ha
    refine (List.map_congr_left fun c hc => ?_).trans (List.map_id _)
    rw [if_neg fun heq : c = a => ha (heq ▸ hc), id_eq]
  rw [List.map_append, List.map_cons, if_pos rfl,
    hkept before fun ha => hbefore a ha a List.mem_cons_self rfl,
    hkept after (List.nodup_cons.1 hafter).1]

/-- The line that stands for a line when the breed is renamed. -/
def Declaration.renameBreed (b : Breed) (plural singular : String) : Declaration → Declaration
  | .globals names => .globals names
  | .breed kind p s => if p = b.plural then .breed kind plural singular else .breed kind p s
  | .own owner names => .own (if owner = b.plural then plural else owner) names

namespace Registries

variable {r r' : Registries} {events : List RegistryEvent}

/-- The registries without a breed and without the variables that have it as their scope. -/
def withoutBreed (r : Registries) (b : Breed) : Registries :=
  ⟨r.breeds.filter (· ≠ b), r.vars.filter (·.scope ≠ .breed b.plural)⟩

/-- The variables that a breed owns are those that have it as their scope, as it is spelled. -/
theorem Coherent.isOwnedBy_iff (hr : r.Coherent) {b : Breed} (hb : b ∈ r.customBreeds)
    {v : Variable} (hv : v ∈ r.vars) :
    v.scope.isOwnedBy b.plural = true ↔ v.scope = .breed b.plural := by
  constructor
  · intro howned
    cases hscope : v.scope with
    | breed owner =>
        rw [hscope, Scope.isOwnedBy, sameName_iff] at howned
        obtain ⟨c, hc, rfl⟩ := hr.owners v hv owner hscope
        rw [hr.eq_of_plural hc hb howned]
    | global | turtles | patches | links =>
        rw [hscope] at howned
        cases howned
  · intro hscope
    rw [hscope, Scope.isOwnedBy, sameName_refl]

theorem Coherent.removeBreed_eq (hr : r.Coherent) {b : Breed} (hb : b ∈ r.customBreeds)
    {name : String} (hanswers : b.answersTo name = true) :
    r.removeBreed name = .ok (r.withoutBreed b,
      (r.variablesIn (.breed b.plural)).map (fun v => .removed .vars v.name) ++
        [.removed .breeds b.plural]) := by
  obtain ⟨before, after, hlocate, -, -⟩ := hr.exists_locateBreed hb hanswers
  obtain ⟨hsplit, -, -⟩ := locateBreed_eq_ok hlocate
  have hnodup := hr.nodup_breeds
  have hbreeds : r.breeds.filter (· ≠ b) = before ++ after := by
    rw [hsplit] at hnodup ⊢
    exact filter_ne_middle hnodup
  have howned : r.vars.filter (·.scope.isOwnedBy b.plural) = r.variablesIn (.breed b.plural) := by
    refine List.filter_congr fun v hv => ?_
    rw [Bool.eq_iff_iff, hr.isOwnedBy_iff hb hv, beq_iff_eq]
  have hkept : (r.vars.filter fun v => !v.scope.isOwnedBy b.plural) =
      r.vars.filter (·.scope ≠ .breed b.plural) := by
    refine List.filter_congr fun v hv => ?_
    rw [Bool.eq_iff_iff, Bool.not_eq_true', ← Bool.not_eq_true, hr.isOwnedBy_iff hb hv,
      decide_eq_true_eq]
  rw [Registries.removeBreed, hlocate, withoutBreed, hbreeds, ← howned, ← hkept]
  rfl

/-- A variable follows its breed exactly when it has the breed as its scope. -/
theorem Coherent.follow_eq (hr : r.Coherent) {b : Breed} (hb : b ∈ r.customBreeds) {v : Variable}
    (hv : v ∈ r.vars) (plural : String) : v.follow b.plural plural =
      if v.scope = .breed b.plural then { v with scope := .breed plural } else v := by
  unfold Variable.follow
  simp only [hr.isOwnedBy_iff hb hv]

/-- The new registries, when a breed is renamed: its place is kept, and the others have names that
its own ones differ from. -/
theorem Coherent.renameBreed_spec (hr : r.Coherent) {b : Breed} (hb : b ∈ r.customBreeds)
    {name plural singular : String} (hanswers : b.answersTo name = true)
    (h : r.renameBreed name plural singular = .ok (r', events)) :
    ∃ before after, r.breeds = before ++ b :: after ∧
      r' = ⟨before ++ { b with plural, singular } :: after,
        r.vars.map (Variable.follow b.plural plural)⟩ ∧
      events = [.renamed .breeds b.plural plural] ∧
      FreeBeside (names ⟨before ++ after, r.vars⟩) plural ∧
      FreeBeside (names ⟨before ++ after, r.vars⟩) singular ∧ fold plural ≠ fold singular := by
  obtain ⟨before, after, hlocate, hperm, -⟩ := hr.exists_locateBreed hb hanswers
  obtain ⟨before', b', after', hlocate', hnames, rfl, rfl⟩ := renameBreed_eq_ok h
  rw [hlocate] at hlocate'
  cases hlocate'
  rw [checkBreedNames_eq_ok, admits_iff_freeBeside hperm hr.distinct,
    admits_iff_freeBeside hperm hr.distinct] at hnames
  exact ⟨before, after, (locateBreed_eq_ok hlocate).1, rfl, rfl, hnames⟩

/-- The lists of owners that are told apart are kept when the owners are renamed. -/
theorem addOwned_map_owner {f : String → String} {lists : List (String × List String)}
    {owner : String} (hapart : ∀ list ∈ lists, f list.1 = f owner → list.1 = owner)
    (name : String) :
    addOwned (f owner) name (lists.map (Prod.map f id)) =
      (addOwned owner name lists).map (Prod.map f id) := by
  induction lists with
  | nil => rfl
  | cons list rest ih =>
      obtain ⟨hlist, hrest⟩ := List.forall_mem_cons.1 hapart
      obtain ⟨o, names⟩ := list
      by_cases hsame : o = owner
      · simp [addOwned, hsame]
      · simp [addOwned, hsame, mt hlist hsame, ih hrest]

theorem ownedVariables_concat (breeds : List Breed) (vars : List Variable) (v : Variable) :
    ownedVariables ⟨breeds, vars ++ [v]⟩ = match Declaration.holder v.scope with
      | none => ownedVariables ⟨breeds, vars⟩
      | some owner => addOwned owner v.name (ownedVariables ⟨breeds, vars⟩) := by
  rw [ownedVariables, List.foldl_append, ← owner_eq_holder]
  rfl

/-- Variables whose owners are renamed, apart from each other, stand in the same lists as before. -/
theorem ownedVariables_map {f : String → String} {g : Variable → Variable} {vars : List Variable}
    (hname : ∀ v, (g v).name = v.name)
    (howner : ∀ v ∈ vars,
      Declaration.holder (g v).scope = (Declaration.holder v.scope).map f)
    (hapart : ∀ a ∈ variableOwners vars, ∀ b ∈ variableOwners vars, f a = f b → a = b)
    (breeds breeds' : List Breed) :
    ownedVariables ⟨breeds', vars.map g⟩ =
      (ownedVariables ⟨breeds, vars⟩).map (Prod.map f id) := by
  induction vars using List.reverseRecOn with
  | nil => rfl
  | append_singleton vars v ih =>
      have hmem : ∀ owner ∈ variableOwners vars, owner ∈ variableOwners (vars ++ [v]) := by
        intro owner h
        obtain ⟨w, hw, heq⟩ := mem_variableOwners.1 h
        exact mem_variableOwners.2 ⟨w, List.mem_append_left _ hw, heq⟩
      have hvars := ih (fun w hw => howner w (List.mem_append_left _ hw))
        fun a ha b hb => hapart a (hmem a ha) b (hmem b hb)
      have hv := howner v (by simp)
      rw [List.map_append, List.map_singleton, ownedVariables_concat, ownedVariables_concat, hvars,
        hv, hname]
      cases hscope : Declaration.holder v.scope with
      | none => rfl
      | some owner =>
          refine addOwned_map_owner (fun list hlist hsame => ?_) v.name
          rw [ownedVariables_eq] at hlist
          obtain ⟨o, ho, rfl⟩ := List.mem_map.1 hlist
          exact hapart o (hmem o ho) owner (mem_variableOwners.2 ⟨v, by simp, hscope⟩) hsame

/-- The owner that a list of variables has after its breed was renamed. -/
def renameOwner (old new owner : String) : String := if owner = old then new else owner

/-- A declared breed has no name of a built-in one, in any case. -/
theorem Coherent.fold_not_mem_builtin (hr : r.Coherent) {b : Breed} (hb : b ∈ r.customBreeds)
    {name : String} (hname : name ∈ [b.plural, b.singular]) :
    fold name ∉ empty.names.map fold := by
  have hnames : r.names = empty.names ++ names ⟨r.customBreeds, r.vars⟩ := by
    rw [names, hr.builtins, List.flatMap_append, List.append_assoc]
    rfl
  have hdistinct := hr.distinct
  rw [hnames, List.map_append, List.nodup_append] at hdistinct
  have hmem : name ∈ names ⟨r.customBreeds, r.vars⟩ :=
    List.mem_append_left _ (List.mem_flatMap.2 ⟨b, hb, hname⟩)
  exact fun hbuiltin => hdistinct.2.2 _ hbuiltin _ (List.mem_map_of_mem hmem) rfl

theorem Coherent.plural_ne_builtin (hr : r.Coherent) {b : Breed} (hb : b ∈ r.customBreeds) :
    b.plural ∉ ["turtles", "patches", "links"] := by
  have hbuiltin : ["turtles", "patches", "links"] ⊆ empty.names := by decide
  intro hmem
  exact hr.fold_not_mem_builtin hb (by simp) (List.mem_map_of_mem (hbuiltin hmem))

/-- A variable is listed under the renamed owner. -/
theorem Coherent.owner_follow (hr : r.Coherent) {b : Breed} (hb : b ∈ r.customBreeds)
    {v : Variable} (hv : v ∈ r.vars) (plural : String) :
    Declaration.holder (v.follow b.plural plural).scope =
      (Declaration.holder v.scope).map (renameOwner b.plural plural) := by
  have hbuiltin := hr.plural_ne_builtin hb
  rw [hr.follow_eq hb hv]
  cases hscope : v.scope with
  | breed owner =>
      by_cases hsame : owner = b.plural
      · simp [hsame, Declaration.holder, renameOwner]
      · simp [hsame, hscope, Declaration.holder, renameOwner]
  | global => simp [hscope, Declaration.holder]
  | turtles | patches | links =>
      simp only [List.mem_cons, not_or] at hbuiltin
      simp [hscope, Declaration.holder, renameOwner, Ne.symm hbuiltin.1, Ne.symm hbuiltin.2.1,
        Ne.symm hbuiltin.2.2.1]

/-- No other breed has a name that is free beside the other entries. -/
theorem fold_plural_ne {before after : List Breed} {b c : Breed} {vars : List Variable}
    {name : String} (hsplit : r.breeds = before ++ b :: after)
    (hfree : FreeBeside (names ⟨before ++ after, vars⟩) name) (hc : c ∈ r.breeds) (hne : c ≠ b) :
    fold c.plural ≠ fold name := by
  have hrest : c ∈ before ++ after := by
    rw [hsplit] at hc
    simpa [hne] using hc
  exact hfree.2 _ ((plurals_sublist _ _).subset (List.mem_map_of_mem hrest))

/-- The owners stay apart when one of them has a new plural that is free. -/
theorem Coherent.renameOwner_apart (hr : r.Coherent) {before after : List Breed} {b : Breed}
    (hsplit : r.breeds = before ++ b :: after) {plural : String}
    (hfree : FreeBeside (names ⟨before ++ after, r.vars⟩) plural) :
    ∀ a ∈ variableOwners r.vars, ∀ c ∈ variableOwners r.vars,
      renameOwner b.plural plural a = renameOwner b.plural plural c → a = c := by
  have hother : ∀ owner ∈ variableOwners r.vars, owner ≠ b.plural → owner ≠ plural := by
    rintro owner howner hne rfl
    obtain ⟨c, hc, rfl⟩ := List.mem_map.1 (hr.owners_subset howner)
    exact fold_plural_ne hsplit hfree hc (fun heq => hne (congrArg Breed.plural heq)) rfl
  intro a ha c hc hsame
  unfold renameOwner at hsame
  split at hsame <;> split at hsame
  · rename_i ha' hc'
    exact ha'.trans hc'.symm
  · rename_i hc'
    exact absurd hsame.symm (hother c hc hc')
  · rename_i ha' _
    exact absurd hsame (hother a ha ha')
  · exact hsame

theorem Coherent.ownedVariables_renameBreed (hr : r.Coherent) {b : Breed}
    (hb : b ∈ r.customBreeds) {name plural singular : String} (hanswers : b.answersTo name = true)
    (h : r.renameBreed name plural singular = .ok (r', events)) :
    r'.ownedVariables = r.ownedVariables.map (Prod.map (renameOwner b.plural plural) id) := by
  obtain ⟨before, after, hsplit, rfl, -, hfree, -⟩ := hr.renameBreed_spec hb hanswers h
  exact ownedVariables_map (Variable.follow_name _ _) (fun v hv => hr.owner_follow hb hv plural)
    (hr.renameOwner_apart hsplit hfree) _ _

theorem unowned_follow (vars : List Variable) (old new : String) :
    unowned (vars.map (Variable.follow old new)) = unowned vars := by
  have hglobal : ∀ v : Variable, ((v.follow old new).scope == .global) = (v.scope == .global) := by
    intro v
    unfold Variable.follow
    split
    · rename_i howned
      cases hscope : v.scope with
      | breed owner => rfl
      | global | turtles | patches | links =>
          rw [hscope] at howned
          cases howned
    · rfl
  simp only [unowned, List.filter_map, List.map_map, Function.comp_def, hglobal,
    Variable.follow_name]

theorem ownLines_eq (r : Registries) :
    r.ownLines = r.ownedVariables.map fun list => .own list.1 list.2 := by
  rw [ownLines, ownedVariables_eq, List.map_map]
  rfl

theorem Coherent.breeds_renameBreed (hr : r.Coherent) {b : Breed} (hb : b ∈ r.customBreeds)
    {name plural singular : String} (hanswers : b.answersTo name = true)
    (h : r.renameBreed name plural singular = .ok (r', events)) :
    r'.breeds = r.breeds.map fun c => if c = b then { c with plural, singular } else c := by
  obtain ⟨before, after, hsplit, rfl, -⟩ := hr.renameBreed_spec hb hanswers h
  have hnodup := hr.nodup_breeds
  rw [hsplit] at hnodup ⊢
  rw [map_if_middle hnodup fun c => { c with plural, singular }]

theorem Coherent.customBreeds_renameBreed (hr : r.Coherent) {b : Breed} (hb : b ∈ r.customBreeds)
    {name plural singular : String} (hanswers : b.answersTo name = true)
    (h : r.renameBreed name plural singular = .ok (r', events)) :
    r'.customBreeds =
      r.customBreeds.map fun c => if c = b then { c with plural, singular } else c := by
  have hbuiltin : ∀ c : Breed, (!(if c = b then { c with plural, singular } else c).builtin) =
      !c.builtin := by
    intro c
    split <;> rfl
  simp only [customBreeds, hr.breeds_renameBreed hb hanswers h, List.filter_map, Function.comp_def,
    hbuiltin]

theorem Coherent.vars_renameBreed (hr : r.Coherent) {b : Breed} (hb : b ∈ r.customBreeds)
    {name plural singular : String} (hanswers : b.answersTo name = true)
    (h : r.renameBreed name plural singular = .ok (r', events)) :
    r'.vars = r.vars.map fun v =>
      if v.scope = .breed b.plural then { v with scope := .breed plural } else v := by
  obtain ⟨before, after, -, rfl, -⟩ := hr.renameBreed_spec hb hanswers h
  exact List.map_congr_left fun v hv => hr.follow_eq hb hv plural

/-- The declarations of renamed registries are those from before, line by line: only the lines of
the breed and of its variables change, and they change no more than the names of the breed. -/
theorem Coherent.declared_renameBreed (hr : r.Coherent) {b : Breed} (hb : b ∈ r.customBreeds)
    {name plural singular : String} (hanswers : b.answersTo name = true)
    (h : r.renameBreed name plural singular = .ok (r', events)) :
    r'.declared = r.declared.map (Declaration.renameBreed b plural singular) := by
  have hglobals :
      r'.globalLines = r.globalLines.map (Declaration.renameBreed b plural singular) := by
    obtain ⟨before, after, -, rfl, -⟩ := hr.renameBreed_spec hb hanswers h
    rw [globalLines, unowned_follow, globalLines]
    split <;> rfl
  have hbreeds : r'.breedLines = r.breedLines.map (Declaration.renameBreed b plural singular) := by
    rw [breedLines_eq, breedLines_eq, hr.customBreeds_renameBreed hb hanswers h, List.map_map,
      List.map_map]
    refine List.map_congr_left fun c hc => ?_
    have hsame : c.plural = b.plural ↔ c = b :=
      ⟨fun heq => hr.eq_of_plural hc hb (congrArg fold heq), congrArg Breed.plural⟩
    simp only [Function.comp_apply, Declaration.renameBreed, hsame]
    split <;> rfl
  have howned : r'.ownLines = r.ownLines.map (Declaration.renameBreed b plural singular) := by
    rw [ownLines_eq, ownLines_eq, hr.ownedVariables_renameBreed hb hanswers h, List.map_map,
      List.map_map]
    rfl
  rw [declared, declared, List.map_append, List.map_append, hglobals, hbreeds, howned]

/-- What an edit that addresses a declared breed changes. Its removal takes out the breed and the
variables that have it as their scope, and tells of each. Its renaming gives it new names and its
variables the new scope, in their places, so that its line of variables is kept too. -/
structure ReachesOnly (r : Registries) (b : Breed) (name : String) : Prop where
  remove : r.removeBreed name = .ok (r.withoutBreed b,
    (r.variablesIn (.breed b.plural)).map (fun v => .removed .vars v.name) ++
      [.removed .breeds b.plural])
  rename : ∀ plural singular r' events, r.renameBreed name plural singular = .ok (r', events) →
    r'.breeds = r.breeds.map (fun c => if c = b then { c with plural, singular } else c) ∧
      r'.vars = r.vars.map (fun v =>
        if v.scope = .breed b.plural then { v with scope := .breed plural } else v) ∧
      r'.ownedVariables = r.ownedVariables.map (Prod.map (renameOwner b.plural plural) id) ∧
      Declaration.read? ("\n\n".intercalate r'.declarations) =
        some (r.declared.map (Declaration.renameBreed b plural singular))

theorem Coherent.reachesOnly (hr : r.Coherent) {b : Breed} (hb : b ∈ r.customBreeds)
    {name : String} (hanswers : b.answersTo name = true) : r.ReachesOnly b name where
  remove := hr.removeBreed_eq hb hanswers
  rename plural singular r' events h := by
    refine ⟨hr.breeds_renameBreed hb hanswers h, hr.vars_renameBreed hb hanswers h,
      hr.ownedVariables_renameBreed hb hanswers h, ?_⟩
    rw [← hr.declared_renameBreed hb hanswers h]
    exact read?_declarations (hr.renameBreed h).legible_declared

end Registries

namespace RegistryEdit

/-- After any edits of a model without declarations, the removal of a declared breed takes exactly
the breed and the variables that are its own, and its renaming changes no names but its two, no
scopes but those of its own variables, and no places at all. -/
theorem reachesOnly_run (edits : List RegistryEdit) :
    ∀ b ∈ (run .empty edits).customBreeds, ∀ name, b.answersTo name = true →
      (run .empty edits).ReachesOnly b name := by
  intro b hb name hanswers
  exact (coherent_run Registries.coherent_empty edits).reachesOnly hb hanswers

theorem answersTo_wolf : Breed.answersTo ⟨"wolves", "wolf", .turtle, false⟩ "Wolf" = true := by
  have hfold : fold "wolf" = fold "Wolf" := by
    have hcapital : fold "Wolf" = "wolf" := by decide +kernel
    have hsmall : fold "wolf" = "wolf" := by decide +kernel
    rw [hcapital, hsmall]
  rw [Breed.answersTo, sameName_iff.2 hfold, Bool.or_true]

/-- The breed of `hungerEdits`, renamed by its singular in another case. -/
theorem renameBreed_hungerEdits : (run .empty hungerEdits).renameBreed "Wolf" "dogs" "dog" =
    .ok (⟨Registries.builtinBreeds ++ [⟨"dogs", "dog", .turtle, false⟩],
      [⟨"hunger", .breed "dogs"⟩, ⟨"rate", .global⟩]⟩, [.renamed .breeds "wolves" "dogs"]) := by
  rw [run_hungerEdits]
  have hothers : ∀ b ∈ Registries.builtinBreeds, b.answersTo "Wolf" = false := by decide +kernel
  have hlocate := Registries.locateBreed_of_answersTo
    (r := ⟨Registries.builtinBreeds ++ [⟨"wolves", "wolf", .turtle, false⟩],
      [⟨"hunger", .breed "wolves"⟩, ⟨"rate", .global⟩]⟩) rfl rfl hothers answersTo_wolf
  have hnames : Registries.checkBreedNames
      ⟨Registries.builtinBreeds ++ [⟨"wolves", "wolf", .turtle, false⟩],
        [⟨"hunger", .breed "wolves"⟩, ⟨"rate", .global⟩]⟩ ["wolves", "wolf"] "dogs" "dog" =
      .ok () := by decide +kernel
  rw [Registries.renameBreed_of_check hlocate hnames]
  simp [Variable.follow, Scope.isOwnedBy]

theorem reachesOnly_hungerEdits :
    (run .empty hungerEdits).removeBreed "Wolf" =
        .ok (⟨Registries.builtinBreeds, [⟨"rate", .global⟩]⟩,
          [.removed .vars "hunger", .removed .breeds "wolves"]) ∧
      Registries.ownedVariables ⟨Registries.builtinBreeds ++ [⟨"dogs", "dog", .turtle, false⟩],
        [⟨"hunger", .breed "dogs"⟩, ⟨"rate", .global⟩]⟩ = [("dogs", ["hunger"])] := by
  have hmem : ⟨"wolves", "wolf", .turtle, false⟩ ∈ (run .empty hungerEdits).customBreeds := by
    rw [run_hungerEdits]
    decide
  have hreach := reachesOnly_run hungerEdits _ hmem "Wolf" answersTo_wolf
  obtain ⟨-, -, howned, -⟩ := hreach.rename _ _ _ _ renameBreed_hungerEdits
  have hremove := hreach.remove
  rw [run_hungerEdits] at howned hremove ⊢
  exact ⟨hremove, howned⟩

end RegistryEdit

end AgentBlocks
