import AgentBlocks.Proofs.Registry.Addressing
import AgentBlocks.Proofs.Registry.Replay
import AgentBlocks.Proofs.Registry.Undo
import AgentBlocks.Proofs.Session.Edits

/-!
Renaming as removal and new declaration. A rename checks its names while the entry and the variables
of a breed still stand in the registries; it is accepted all the same exactly when the entry can be
removed and declared anew, its variables after it, and it leads to the same entries. Only their
places differ: the rename keeps them, the declarations come last.
-/
namespace AgentBlocks

open Text

namespace RegistryEdit

variable {r r' : Registries}

/-- The edits that remove the variable `old` and declare it anew, with its scope. -/
def redeclareVariable (r : Registries) (old new : String) : List RegistryEdit :=
  .removeVariable old :: (r.findVariable? old).toList.map fun v => .addVariable new v.scope

/-- The edits that remove the breed `old` and declare it anew, and after it the variables that went
with it. -/
def redeclareBreed (r : Registries) (old plural singular : String) : List RegistryEdit :=
  .removeBreed old :: (r.findBreed? old).toList.flatMap fun b =>
    .addBreed plural singular b.kind ::
      (r.variablesIn (.breed b.plural)).map fun v => .addVariable v.name (.breed plural)

theorem performEdits_cons_of_error {edit : RegistryEdit} {rest : List RegistryEdit}
    {e : RegistryError} (h : edit.change r = .error e) :
    performEdits (edit :: rest) r = (.error e, r) := by
  rw [performEdits, h]

theorem performEdits_cons_eq_ok {edit : RegistryEdit} {rest : List RegistryEdit} :
    performEdits (edit :: rest) r = (.ok (), r') ↔
      ∃ r₁ events, edit.change r = .ok (r₁, events) ∧ performEdits rest r₁ = (.ok (), r') := by
  cases h : edit.change r with
  | error e =>
      rw [performEdits_cons_of_error h]
      simp
  | ok changed =>
      obtain ⟨r₁, events⟩ := changed
      rw [performEdits_cons_of_ok h, apply_of_change h]
      simp

theorem performEdits_addVariables {vars : List Variable} :
    performEdits (vars.map fun v => .addVariable v.name v.scope) r = (.ok (), r') ↔
      vars.foldlM (fun r v => (·.1) <$> r.addVariable v.name v.scope) r = .ok r' := by
  induction vars generalizing r with
  | nil => simp [performEdits, pure, Except.pure]
  | cons v rest ih =>
      rw [List.map_cons, List.foldlM_cons, performEdits_cons_eq_ok, except_bind_eq_ok]
      constructor
      · rintro ⟨r₁, events, hadd, hrest⟩
        exact ⟨r₁, Registries.replayed_eq_ok.2 ⟨events, hadd⟩, ih.1 hrest⟩
      · rintro ⟨r₁, hadd, hrest⟩
        obtain ⟨events, hadd⟩ := Registries.replayed_eq_ok.1 hadd
        exact ⟨r₁, events, hadd, ih.2 hrest⟩

end RegistryEdit

namespace Registries

open RegistryEdit (redeclareVariable redeclareBreed performEdits_cons_of_ok
  performEdits_cons_of_error performEdits_cons_eq_ok performEdits_addVariables apply_of_change)

variable {r r' : Registries} {events : List RegistryEvent}

/-- The name of an entry is checked as if the entry were not there. -/
theorem checkName_beside {own : List String} {others : Registries}
    (hperm : r.names.Perm (own ++ others.names)) (hdistinct : (r.names.map fold).Nodup)
    (name : String) : r.checkName own name = others.checkName [] name := by
  have htaken : (r.names.any fun used => sameName used name && !own.any (sameName · used)) =
      others.names.any fun used =>
        sameName used name && !([] : List String).any (sameName · used) := by
    rw [Bool.eq_iff_iff, ← not_iff_not, Bool.not_eq_true, Bool.not_eq_true, taken_eq_false,
      taken_eq_false, free_iff_beside hperm hdistinct]
    simp
  unfold checkName
  rw [htaken]

/-- The plural of a declared breed is resolved to itself. -/
theorem Coherent.resolveScope_plural (hr : r.Coherent) {b : Breed} (hb : b ∈ r.customBreeds) :
    r.resolveScope (.breed b.plural) = .ok (.breed b.plural) :=
  hr.resolveScope_spelled hb rfl

theorem Coherent.resolveScope_scope (hr : r.Coherent) {v : Variable} (hv : v ∈ r.vars) :
    r.resolveScope v.scope = .ok v.scope := by
  cases hscope : v.scope with
  | breed owner =>
      obtain ⟨b, hb, rfl⟩ := hr.owners v hv owner hscope
      exact hr.resolveScope_plural hb
  | global | turtles | patches | links => rfl

/-- A variable that is found is declared anew exactly when its new name passes the check. -/
theorem Coherent.performEdits_redeclareVariable (hr : r.Coherent) {old : String} (new : String)
    {before after : List Variable} {v : Variable}
    (hlocate : r.locateVariable old = .ok (before, v, after)) :
    performEdits (redeclareVariable r old new) r = match r.checkName [v.name] new with
      | .ok () => (.ok (), ⟨r.breeds, before ++ after ++ [{ v with name := new }]⟩)
      | .error e => (.error e, ⟨r.breeds, before ++ after⟩) := by
  obtain ⟨hv, hsame⟩ := locateVariable_mem hlocate
  have hremove : (RegistryEdit.removeVariable old).change r =
      .ok (⟨r.breeds, before ++ after⟩, [.removed .vars v.name]) := by
    rw [RegistryEdit.change, Registries.removeVariable, hlocate]
    rfl
  have hperm := names_variable_perm r.breeds before after v
  rw [← (locateVariable_eq_ok hlocate).1] at hperm
  have hcheck : r.checkName [v.name] new = checkName ⟨r.breeds, before ++ after⟩ [] new :=
    checkName_beside hperm hr.distinct new
  have hscope : resolveScope ⟨r.breeds, before ++ after⟩ v.scope = .ok v.scope :=
    hr.resolveScope_scope hv
  rw [redeclareVariable, hr.findVariable?_eq_some hv hsame, performEdits_cons_of_ok hremove,
    apply_of_change hremove, hcheck]
  simp only [Option.toList_some, List.map_cons, List.map_nil]
  cases hname : checkName ⟨r.breeds, before ++ after⟩ [] new with
  | error e =>
      refine performEdits_cons_of_error ?_
      rw [RegistryEdit.change, Registries.addVariable, hname]
      rfl
  | ok checked =>
      have hadd : (RegistryEdit.addVariable new v.scope).change ⟨r.breeds, before ++ after⟩ =
          .ok (⟨r.breeds, before ++ after ++ [{ v with name := new }]⟩, [.added .vars new]) := by
        rw [RegistryEdit.change, Registries.addVariable, hname, hscope]
        rfl
      rw [performEdits_cons_of_ok hadd, apply_of_change hadd]
      rfl

/-- The two registries hold the same entries, in whatever order. -/
structure SameEntries (r r' : Registries) : Prop where
  breeds : r.breeds.Perm r'.breeds
  vars : r.vars.Perm r'.vars

/-- The variables of a breed with its new plural as their scope. -/
def reowned (r : Registries) (b : Breed) (plural : String) : List Variable :=
  (r.variablesIn (.breed b.plural)).map fun v => { v with scope := .breed plural }

/-- The registries in which a breed and its variables are declared anew. -/
def redeclared (r : Registries) (b : Breed) (plural singular : String) : Registries :=
  ⟨(r.withoutBreed b).breeds ++ [{ b with plural, singular }],
    (r.withoutBreed b).vars ++ r.reowned b plural⟩

theorem vars_perm (r : Registries) (b : Breed) :
    r.vars.Perm ((r.withoutBreed b).vars ++ r.variablesIn (.breed b.plural)) := by
  have hsplit := List.filter_append_perm (fun v : Variable => v.scope == .breed b.plural) r.vars
  refine hsplit.symm.trans (List.perm_append_comm.trans (List.Perm.append_right _ (.of_eq ?_)))
  refine List.filter_congr fun v _ => ?_
  rw [Bool.eq_iff_iff, Bool.not_eq_true', beq_eq_false_iff_ne, decide_eq_true_eq]

/-- The names beside a breed are carried by the others and by variables with the names of its
own. -/
theorem namesBesideBreed_perm {b : Breed} {declared : List Variable}
    (hnames : declared.map (·.name) = (r.variablesIn (.breed b.plural)).map (·.name)) :
    (r.namesBesideBreed b).Perm
      (names ⟨(r.withoutBreed b).breeds, (r.withoutBreed b).vars ++ declared⟩) := by
  refine List.Perm.append_left _ (((vars_perm r b).map _).trans (.of_eq ?_))
  rw [List.map_append, List.map_append, hnames]

theorem names_concat_perm (breeds : List Breed) (b : Breed) (vars : List Variable) :
    (names ⟨breeds ++ [b], vars⟩).Perm ([b.plural, b.singular] ++ names ⟨breeds, vars⟩) := by
  have hperm := names_breed_perm breeds [] b vars
  rwa [List.append_nil] at hperm

/-- What it takes to declare a breed anew and its variables after it. -/
theorem performEdits_declare {others : Registries} {b : Breed} {plural singular : String} :
    performEdits (.addBreed plural singular b.kind ::
        (r.variablesIn (.breed b.plural)).map fun v => .addVariable v.name (.breed plural)) others =
        (.ok (), r') ↔
      ∃ r₁ events, others.addBreed plural singular b.kind = .ok (r₁, events) ∧
        (r.reowned b plural).foldlM (fun r v => (·.1) <$> r.addVariable v.name v.scope) r₁ =
          .ok r' := by
  have hvars : ((r.variablesIn (.breed b.plural)).map fun v =>
      RegistryEdit.addVariable v.name (.breed plural)) =
        (r.reowned b plural).map fun v => .addVariable v.name v.scope := by
    rw [reowned, List.map_map]
    rfl
  rw [performEdits_cons_eq_ok, hvars]
  simp only [performEdits_addVariables]
  rfl

theorem map_name_reowned (r : Registries) (b : Breed) (plural : String) :
    (r.reowned b plural).map (·.name) = (r.variablesIn (.breed b.plural)).map (·.name) := by
  rw [reowned, List.map_map]
  rfl

/-- When a breed and its variables are declared anew, the names of the breed are free beside all
others, those of its variables included. -/
theorem freeBeside_of_declare {b : Breed} {plural singular : String} {r₁ : Registries}
    (hothers : (r.withoutBreed b).Coherent)
    (hadd : (r.withoutBreed b).addBreed plural singular b.kind = .ok (r₁, events))
    (hvars : (r.reowned b plural).foldlM (fun r v => (·.1) <$> r.addVariable v.name v.scope) r₁ =
      .ok r') :
    FreeBeside (r.namesBesideBreed b) plural ∧ FreeBeside (r.namesBesideBreed b) singular ∧
      fold plural ≠ fold singular := by
  have hr' := coherent_foldlM Coherent.addVariable (hothers.addBreed hadd) hvars
  obtain ⟨-, hnames, rfl, -⟩ := addBreed_eq_ok hadd
  obtain ⟨hplural, hsingular, hne⟩ := checkBreedNames_eq_ok.1 hnames
  obtain ⟨declared, rfl, hdeclared, -⟩ := eq_of_foldlM_addVariable hvars
  have hperm := names_concat_perm (r.withoutBreed b).breeds ⟨plural, singular, b.kind, false⟩
    ((r.withoutBreed b).vars ++ declared)
  have hbeside := namesBesideBreed_perm (hdeclared.trans (map_name_reowned r b plural))
  have hfree : ∀ name ∈ [plural, singular], ∀ used ∈ r.namesBesideBreed b, fold used ≠ fold name :=
    fun name hname used hused => ne_of_perm hperm hr'.distinct hname (hbeside.mem_iff.1 hused)
  exact ⟨⟨hplural.usable, hfree plural (by simp)⟩, ⟨hsingular.usable, hfree singular (by simp)⟩,
    hne⟩

theorem Coherent.names_perm_beside (hr : r.Coherent) {b : Breed} (hb : b ∈ r.customBreeds) :
    r.names.Perm ([b.plural, b.singular] ++ r.namesBesideBreed b) := by
  have hanswers : b.answersTo b.plural = true := by
    rw [Breed.answersTo, sameName_refl, Bool.true_or]
  obtain ⟨before, after, -, hperm, hbeside⟩ := hr.exists_locateBreed hb hanswers
  rwa [hbeside]

/-- Free names stay apart from all others when the variables of the breed have moved to the end. -/
theorem Coherent.distinct_redeclared (hr : r.Coherent) {b : Breed} (hb : b ∈ r.customBreeds)
    {plural singular : String} (hplural : FreeBeside (r.namesBesideBreed b) plural)
    (hsingular : FreeBeside (r.namesBesideBreed b) singular) (hne : fold plural ≠ fold singular) :
    (([plural, singular] ++ names ⟨(r.withoutBreed b).breeds,
      (r.withoutBreed b).vars ++ r.reowned b plural⟩).map fold).Nodup := by
  have hperm := hr.names_perm_beside hb
  have hbeside := namesBesideBreed_perm (map_name_reowned r b plural)
  refine (((hbeside.append_left _).map fold).nodup_iff).1
    (distinct_replace hperm hr.distinct (by simpa using hne) fun name hname => ?_)
  rw [admits_iff_freeBeside hperm hr.distinct]
  rcases List.mem_pair.1 hname with rfl | rfl
  · exact hplural
  · exact hsingular

/-- Where the breed stands under its new names, its variables are declared with their own ones. -/
theorem Coherent.declare_reowned (hr : r.Coherent) {r₁ : Registries} (hr₁ : r₁.Coherent)
    {b : Breed} {plural singular : String} (hb : { b with plural, singular } ∈ r₁.customBreeds)
    (hdistinct : ((names ⟨r₁.breeds, r₁.vars ++ r.reowned b plural⟩).map fold).Nodup) :
    (r.reowned b plural).foldlM (fun r v => (·.1) <$> r.addVariable v.name v.scope) r₁ =
      .ok ⟨r₁.breeds, r₁.vars ++ r.reowned b plural⟩ := by
  have husable : ∀ v ∈ r.reowned b plural, Usable v.name := by
    intro v hv
    obtain ⟨w, hw, rfl⟩ := List.mem_map.1 hv
    exact hr.vars w (List.mem_of_mem_filter hw)
  have hscope : ∀ v ∈ r.reowned b plural, r₁.resolveScope v.scope = .ok (id v.scope) := by
    intro v hv
    obtain ⟨w, -, rfl⟩ := List.mem_map.1 hv
    exact hr₁.resolveScope_plural hb
  rw [foldlM_addVariable husable hscope hdistinct]
  simp

/-- A breed is declared anew under free names, and its variables after it. -/
theorem Coherent.declare_of_freeBeside (hr : r.Coherent) {b : Breed} (hb : b ∈ r.customBreeds)
    (hothers : (r.withoutBreed b).Coherent) {plural singular : String}
    (hplural : FreeBeside (r.namesBesideBreed b) plural)
    (hsingular : FreeBeside (r.namesBesideBreed b) singular) (hne : fold plural ≠ fold singular) :
    ∃ r₁ events, (r.withoutBreed b).addBreed plural singular b.kind = .ok (r₁, events) ∧
      (r.reowned b plural).foldlM (fun r v => (·.1) <$> r.addVariable v.name v.scope) r₁ =
        .ok (r.redeclared b plural singular) := by
  have hdeclared := hr.breeds b hb
  have hall := hr.distinct_redeclared hb hplural hsingular hne
  -- without the names of the variables, which are declared later, they are distinct too
  have hadd := addBreed_of_free (r := r.withoutBreed b) (b := { b with plural, singular })
    hdeclared.kind hplural.1 hsingular.1 (hall.sublist (List.Sublist.map fold
      ((((List.sublist_append_left _ _).map _).append_left _).append_left _)))
  have hnew : ({ b with plural, singular } : Breed).declaration = { b with plural, singular } := by
    rw [Breed.declaration, hdeclared.custom]
  have hr₁ := hothers.addBreed hadd
  rw [hnew] at hadd hr₁
  have hmem : { b with plural, singular } ∈
      customBreeds ⟨(r.withoutBreed b).breeds ++ [{ b with plural, singular }],
        (r.withoutBreed b).vars⟩ :=
    List.mem_filter.2 ⟨by simp, by simp [hdeclared.custom]⟩
  exact ⟨_, _, hadd, hr.declare_reowned hr₁ hmem
    (((names_concat_perm _ _ _).map fold).nodup_iff.2 hall)⟩

/-- Renamed and declared anew, a breed and its variables are the same entries beside the others. -/
theorem Coherent.sameEntries_redeclared (hr : r.Coherent) {b : Breed} (hb : b ∈ r.customBreeds)
    {name plural singular : String} (hanswers : b.answersTo name = true)
    (h : r.renameBreed name plural singular = .ok (r', events)) :
    (r.redeclared b plural singular).SameEntries r' := by
  constructor
  · obtain ⟨before, after, hsplit, rfl, -⟩ := hr.renameBreed_spec hb hanswers h
    have hnodup := hr.nodup_breeds
    rw [hsplit] at hnodup
    rw [redeclared, withoutBreed, hsplit, filter_ne_middle hnodup]
    exact (List.perm_append_singleton _ _).trans List.perm_middle.symm
  · rw [hr.vars_renameBreed hb hanswers h]
    refine List.Perm.trans ?_ ((vars_perm r b).symm.map _)
    rw [List.map_append, redeclared]
    have hkept : ((r.withoutBreed b).vars.map fun v : Variable =>
        if v.scope = .breed b.plural then { v with scope := .breed plural } else v) =
          (r.withoutBreed b).vars := by
      refine (List.map_congr_left fun v hv => ?_).trans (List.map_id _)
      rw [if_neg (by simpa using (List.mem_filter.1 hv).2), id_eq]
    have howned : ((r.variablesIn (.breed b.plural)).map fun v : Variable =>
        if v.scope = .breed b.plural then { v with scope := .breed plural } else v) =
          r.reowned b plural := by
      refine List.map_congr_left fun v hv => ?_
      rw [if_pos (by simpa using (List.mem_filter.1 hv).2)]
    rw [hkept, howned]

/-- Removed first, a breed is declared anew as it would be in registries that never had it. -/
theorem Coherent.performEdits_redeclareBreed (hr : r.Coherent) {b : Breed} (hb : b ∈ r.customBreeds)
    {old plural singular : String} (hanswers : b.answersTo old = true) :
    performEdits (redeclareBreed r old plural singular) r = (.ok (), r') ↔
      ∃ r₁ events, (r.withoutBreed b).addBreed plural singular b.kind = .ok (r₁, events) ∧
        (r.reowned b plural).foldlM (fun r v => (·.1) <$> r.addVariable v.name v.scope) r₁ =
          .ok r' := by
  have hremove : (RegistryEdit.removeBreed old).change r = .ok (r.withoutBreed b, _) :=
    hr.removeBreed_eq hb hanswers
  rw [redeclareBreed, hr.findBreed?_eq_some (List.mem_filter.1 hb).1 hanswers,
    performEdits_cons_of_ok hremove, apply_of_change hremove, Option.toList_some,
    List.flatMap_singleton, performEdits_declare]

/-- The names of an accepted rename are free beside all others, so the breed is declared anew
too. -/
theorem Coherent.performEdits_redeclareBreed_of_rename (hr : r.Coherent) {b : Breed}
    (hb : b ∈ r.customBreeds) {old plural singular : String} (hanswers : b.answersTo old = true)
    (h : r.renameBreed old plural singular = .ok (r', events)) :
    performEdits (redeclareBreed r old plural singular) r =
      (.ok (), r.redeclared b plural singular) := by
  have hothers := hr.removeBreed (hr.removeBreed_eq hb hanswers)
  obtain ⟨hplural, hsingular, hne⟩ :=
    (hr.takesFreeNames.renameBreed b hb old hanswers plural singular).1 ⟨_, h⟩
  exact (hr.performEdits_redeclareBreed hb hanswers).2
    (hr.declare_of_freeBeside hb hothers hplural hsingular hne)

/-- A breed that can be declared anew can be renamed. -/
theorem Coherent.renameBreed_of_redeclare (hr : r.Coherent) {b : Breed} (hb : b ∈ r.customBreeds)
    {old plural singular : String} (hanswers : b.answersTo old = true)
    (h : performEdits (redeclareBreed r old plural singular) r = (.ok (), r')) :
    ∃ out, r.renameBreed old plural singular = .ok out := by
  have hothers := hr.removeBreed (hr.removeBreed_eq hb hanswers)
  obtain ⟨r₁, events, hadd, hvars⟩ := (hr.performEdits_redeclareBreed hb hanswers).1 h
  exact (hr.takesFreeNames.renameBreed b hb old hanswers plural singular).2
    (freeBeside_of_declare hothers hadd hvars)

/-- A rename comes to the same as removal and new declaration: it is accepted exactly when the edits
that redeclare the entry all are, for a variable with the same error otherwise, and then the same
entries are there. The rename keeps every entry in its place. -/
structure RenamesByRedeclaring (r : Registries) : Prop where
  variable_outcome : ∀ old new, (performEdits (redeclareVariable r old new) r).1 =
    (fun _ => ()) <$> r.renameVariable old new
  variable_entries : ∀ old new r' events, r.renameVariable old new = .ok (r', events) →
    ∃ v, r.findVariable? old = some v ∧
      r' = ⟨r.breeds, r.vars.map fun w => if w = v then { w with name := new } else w⟩ ∧
      (performEdits (redeclareVariable r old new) r).2.SameEntries r'
  breed_outcome : ∀ old plural singular, (∃ out, r.renameBreed old plural singular = .ok out) ↔
    (performEdits (redeclareBreed r old plural singular) r).1 = .ok ()
  breed_entries : ∀ old plural singular r' events,
    r.renameBreed old plural singular = .ok (r', events) →
    ∃ b, r.findBreed? old = some b ∧
      r' = ⟨r.breeds.map fun c => if c = b then { c with plural, singular } else c,
        r.vars.map fun v =>
          if v.scope = .breed b.plural then { v with scope := .breed plural } else v⟩ ∧
      (performEdits (redeclareBreed r old plural singular) r).2.SameEntries r'

theorem Coherent.redeclareVariable_outcome (hr : r.Coherent) (old new : String) :
    (performEdits (redeclareVariable r old new) r).1 =
      (fun _ => ()) <$> r.renameVariable old new := by
  cases hlocate : r.locateVariable old with
  | error e =>
      have hremove : (RegistryEdit.removeVariable old).change r = .error e := by
        rw [RegistryEdit.change, Registries.removeVariable, hlocate]
        rfl
      rw [redeclareVariable, performEdits_cons_of_error hremove, Registries.renameVariable, hlocate]
      rfl
  | ok found =>
      obtain ⟨before, v, after⟩ := found
      rw [hr.performEdits_redeclareVariable new hlocate]
      cases hname : r.checkName [v.name] new with
      | error e =>
          simp only [Registries.renameVariable, hlocate, bind, Except.bind, hname]
          rfl
      | ok checked =>
          rw [renameVariable_of_check hlocate hname]
          rfl

theorem Coherent.redeclareVariable_entries (hr : r.Coherent) {old new : String}
    (h : r.renameVariable old new = .ok (r', events)) :
    ∃ v, r.findVariable? old = some v ∧
      r' = ⟨r.breeds, r.vars.map fun w => if w = v then { w with name := new } else w⟩ ∧
      (performEdits (redeclareVariable r old new) r).2.SameEntries r' := by
  obtain ⟨before, v, after, hlocate, hname, rfl, -⟩ := renameVariable_eq_ok h
  obtain ⟨hv, hsame⟩ := locateVariable_mem hlocate
  have hsplit := (locateVariable_eq_ok hlocate).1
  have hnodup : r.vars.Nodup := hr.nodup_varNames.of_map
  rw [hsplit] at hnodup
  refine ⟨v, hr.findVariable?_eq_some hv hsame, ?_, ?_⟩
  · rw [hsplit, map_if_middle hnodup fun w => { w with name := new }]
  · rw [hr.performEdits_redeclareVariable new hlocate, hname]
    exact ⟨.refl _, (List.perm_append_singleton _ _).trans List.perm_middle.symm⟩

theorem Coherent.redeclareBreed_outcome (hr : r.Coherent) (old plural singular : String) :
    (∃ out, r.renameBreed old plural singular = .ok out) ↔
      (performEdits (redeclareBreed r old plural singular) r).1 = .ok () := by
  constructor
  · rintro ⟨⟨r', events⟩, h⟩
    obtain ⟨b, hb, hanswers⟩ := renameBreed_addresses h
    rw [hr.performEdits_redeclareBreed_of_rename hb hanswers h]
  · intro h
    cases hlocate : r.locateBreed old with
    | error e =>
        have hremove : (RegistryEdit.removeBreed old).change r = .error e :=
          removeBreed_of_error hlocate
        rw [redeclareBreed, performEdits_cons_of_error hremove] at h
        cases h
    | ok found =>
        obtain ⟨before, b, after⟩ := found
        obtain ⟨hb, hanswers⟩ := locateBreed_mem hlocate
        exact hr.renameBreed_of_redeclare hb hanswers (Prod.ext h rfl)

theorem Coherent.redeclareBreed_entries (hr : r.Coherent) {old plural singular : String}
    (h : r.renameBreed old plural singular = .ok (r', events)) :
    ∃ b, r.findBreed? old = some b ∧
      r' = ⟨r.breeds.map fun c => if c = b then { c with plural, singular } else c,
        r.vars.map fun v =>
          if v.scope = .breed b.plural then { v with scope := .breed plural } else v⟩ ∧
      (performEdits (redeclareBreed r old plural singular) r).2.SameEntries r' := by
  obtain ⟨b, hb, hanswers⟩ := renameBreed_addresses h
  refine ⟨b, hr.findBreed?_eq_some (List.mem_filter.1 hb).1 hanswers, ?_, ?_⟩
  · rw [← hr.breeds_renameBreed hb hanswers h, ← hr.vars_renameBreed hb hanswers h]
  · rw [hr.performEdits_redeclareBreed_of_rename hb hanswers h]
    exact hr.sameEntries_redeclared hb hanswers h

theorem Coherent.renamesByRedeclaring (hr : r.Coherent) : r.RenamesByRedeclaring where
  variable_outcome := hr.redeclareVariable_outcome
  variable_entries _ _ _ _ h := hr.redeclareVariable_entries h
  breed_outcome := hr.redeclareBreed_outcome
  breed_entries _ _ _ _ _ h := hr.redeclareBreed_entries h

end Registries

namespace RegistryEdit

/-- After any edits of a model without declarations, renaming an entry comes to the same as removing
it and declaring it anew. -/
theorem renamesByRedeclaring_run (edits : List RegistryEdit) :
    (run .empty edits).RenamesByRedeclaring :=
  (coherent_run Registries.coherent_empty edits).renamesByRedeclaring

/-- A breed is redeclared with its variable, which then comes after the global one. -/
theorem renamesByRedeclaring_hungerEdits :
    (performEdits [.removeBreed "Wolf", .addBreed "dogs" "dog" .turtle,
        .addVariable "hunger" (.breed "dogs")] (run .empty hungerEdits)).1 = .ok () ∧
      (performEdits [.removeBreed "Wolf", .addBreed "dogs" "dog" .turtle,
        .addVariable "hunger" (.breed "dogs")] (run .empty hungerEdits)).2.SameEntries
          ⟨Registries.builtinBreeds ++ [⟨"dogs", "dog", .turtle, false⟩],
            [⟨"hunger", .breed "dogs"⟩, ⟨"rate", .global⟩]⟩ := by
  have hr := coherent_run Registries.coherent_empty hungerEdits
  have hmem : ⟨"wolves", "wolf", .turtle, false⟩ ∈ (run .empty hungerEdits).breeds := by
    rw [run_hungerEdits]
    decide
  have hedits : redeclareBreed (run .empty hungerEdits) "Wolf" "dogs" "dog" =
      [.removeBreed "Wolf", .addBreed "dogs" "dog" .turtle,
        .addVariable "hunger" (.breed "dogs")] := by
    rw [redeclareBreed, hr.findBreed?_eq_some hmem answersTo_wolf, run_hungerEdits]
    rfl
  have hrenames := renamesByRedeclaring_run hungerEdits
  obtain ⟨b, -, -, hentries⟩ := hrenames.breed_entries _ _ _ _ _ renameBreed_hungerEdits
  have houtcome := (hrenames.breed_outcome _ _ _).1 ⟨_, renameBreed_hungerEdits⟩
  rw [hedits] at hentries houtcome
  exact ⟨houtcome, hentries⟩

end RegistryEdit

end AgentBlocks
