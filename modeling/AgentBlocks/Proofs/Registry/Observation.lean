import AgentBlocks.Proofs.Registry.Persistence
import Mathlib.Data.List.Lemmas
import Mathlib.Data.List.Nodup

/-!
What the listeners of the registries learn. A listener that applies the events one after the other
to the names it knows has the names of the present registries after every edit, spelling and order
included.
-/
namespace AgentBlocks

open Text

/-- The names that a listener keeps: the plurals of the declared breeds and the names of the
variables. -/
structure Observed where
  breeds : List String
  vars : List String
deriving DecidableEq

namespace Observed

/-- What is read from the registries. -/
def of (r : Registries) : Observed := ⟨r.customBreeds.map (·.plural), r.vars.map (·.name)⟩

def update (o : Observed) (f : List String → List String) : Namespace → Observed
  | .breeds => { o with breeds := f o.breeds }
  | .vars => { o with vars := f o.vars }

/-- Applies an event: an added name comes last, a renamed one keeps its place, and a reset is
followed by a look at the registries. -/
def learn (r : Registries) (o : Observed) : RegistryEvent → Observed
  | .added space name => o.update (· ++ [name]) space
  | .renamed space old new => o.update (·.replace old new) space
  | .removed space name => o.update (·.erase name) space
  | .reset => of r

end Observed

theorem replace_middle {before : List String} {old : String} (hold : old ∉ before)
    (new : String) (after : List String) :
    (before ++ old :: after).replace old new = before ++ new :: after := by
  rw [List.replace_append_right hold, List.replace_cons_self]

theorem erase_middle {before : List String} {name : String} (hname : name ∉ before)
    (after : List String) : (before ++ name :: after).erase name = before ++ after := by
  rw [List.erase_append_right _ hname, List.erase_cons_head]

/-- Entries with different names are erased by their names one after the other. -/
theorem foldl_erase_names {vars : List Variable} (hnodup : (vars.map (·.name)).Nodup)
    (p : Variable → Bool) :
    ((vars.filter p).map (·.name)).foldl List.erase (vars.map (·.name)) =
      (vars.filter fun v => !p v).map (·.name) := by
  rw [← List.diff_eq_foldl, hnodup.sdiff_eq_filter, List.filter_map]
  congr 1
  refine List.filter_congr fun v hv => ?_
  rw [Function.comp_apply, decide_not, Bool.not_inj_iff, Bool.eq_iff_iff, decide_eq_true_eq]
  constructor
  · intro h
    obtain ⟨w, hw, hname⟩ := List.mem_map.1 h
    obtain ⟨hw, hp⟩ := List.mem_filter.1 hw
    rwa [List.inj_on_of_nodup_map hnodup hw hv hname] at hp
  · intro hp
    exact List.mem_map_of_mem (List.mem_filter.2 ⟨hv, hp⟩)

/-- A listener forgets removed variables one after the other. -/
theorem Observed.foldl_learn_removed (r : Registries) (o : Observed) (names : List String) :
    (names.map (RegistryEvent.removed .vars)).foldl (Observed.learn r) o =
      { o with vars := names.foldl List.erase o.vars } := by
  induction names generalizing o with
  | nil => rfl
  | cons name rest ih => exact ih _

namespace Registries

variable {r r' : Registries} {events : List RegistryEvent}

/-- A breed that is found for a change is a declared one, and no other before it has its plural. -/
theorem Coherent.of_locateBreed {name : String} {before after : List Breed} {b : Breed}
    (hr : r.Coherent) (h : r.locateBreed name = .ok (before, b, after)) :
    ∃ custom, before = builtinBreeds ++ custom ∧ r.customBreeds = custom ++ b :: after ∧
      b.plural ∉ custom.map (·.plural) ∧ ∀ c ∈ custom ++ b :: after, c.builtin = false := by
  obtain ⟨hsplit, hcustom, -, -⟩ := locateBreed_eq_ok h
  obtain ⟨custom, hbefore, hbreeds⟩ := hr.split hsplit hcustom
  have hplurals := hr.nodup_plurals
  rw [hbreeds, List.map_append, List.map_cons, List.nodup_append] at hplurals
  refine ⟨custom, hbefore, hbreeds, ?_, fun c hc => ?_⟩
  · intro hmem
    exact hplurals.2.2 _ hmem _ List.mem_cons_self rfl
  · rw [← hbreeds] at hc
    exact (hr.breeds c hc).custom

/-- The names in registries that are given by their declared breeds. -/
theorem observed_of_custom {custom : List Breed} (hcustom : ∀ b ∈ custom, b.builtin = false)
    (vars : List Variable) :
    Observed.of ⟨builtinBreeds ++ custom, vars⟩ =
      ⟨custom.map (·.plural), vars.map (·.name)⟩ := by
  rw [Observed.of, customBreeds_append hcustom]

/-- The events of a change lead from the names before it to the names after it. -/
def Tells (r r' : Registries) (events : List RegistryEvent) : Prop :=
  events.foldl (Observed.learn r') (.of r) = .of r'

theorem tells_addBreed {plural singular : String} {kind : BreedKind}
    (h : r.addBreed plural singular kind = .ok (r', events)) : Tells r r' events := by
  obtain ⟨-, -, rfl, rfl⟩ := addBreed_eq_ok h
  simp [Tells, Observed.learn, Observed.update, Observed.of, customBreeds]

theorem Coherent.tells_renameBreed {old plural singular : String} (hr : r.Coherent)
    (h : r.renameBreed old plural singular = .ok (r', events)) : Tells r r' events := by
  obtain ⟨before, b, after, hlocate, -, rfl, rfl⟩ := renameBreed_eq_ok h
  obtain ⟨custom, rfl, hbreeds, hfirst, hcustom⟩ := hr.of_locateBreed hlocate
  have hrenamed : ∀ c ∈ custom ++ { b with plural, singular } :: after, c.builtin = false := by
    intro c hc
    rcases List.mem_append.1 hc with hc | hc
    · exact hcustom c (List.mem_append_left _ hc)
    · rcases List.mem_cons.1 hc with rfl | hc
      · exact hcustom b (by simp)
      · exact hcustom c (by simp [hc])
  rw [Tells, List.append_assoc, observed_of_custom hrenamed]
  simp only [List.foldl_cons, List.foldl_nil, Observed.learn, Observed.update, Observed.of,
    hbreeds, List.map_append, List.map_cons, List.map_map]
  rw [replace_middle hfirst]
  simp [Function.comp_def]

theorem Coherent.tells_removeBreed {name : String} (hr : r.Coherent)
    (h : r.removeBreed name = .ok (r', events)) : Tells r r' events := by
  obtain ⟨before, b, after, hlocate, rfl, rfl⟩ := removeBreed_eq_ok h
  obtain ⟨custom, rfl, hbreeds, hfirst, hcustom⟩ := hr.of_locateBreed hlocate
  have hkept : ∀ c ∈ custom ++ after, c.builtin = false := fun c hc =>
    hcustom c (((List.sublist_cons_self b after).append_left custom).subset hc)
  have howned : (r.vars.filter (·.scope.isOwnedBy b.plural)).map
      (fun v => RegistryEvent.removed .vars v.name) =
        ((r.vars.filter (·.scope.isOwnedBy b.plural)).map (·.name)).map (.removed .vars) := by
    rw [List.map_map]
    rfl
  rw [Tells, List.append_assoc, observed_of_custom hkept, List.foldl_append, howned,
    Observed.foldl_learn_removed]
  simp only [List.foldl_cons, List.foldl_nil, Observed.learn, Observed.update, Observed.of,
    hbreeds, List.map_append, List.map_cons]
  rw [erase_middle hfirst, foldl_erase_names hr.nodup_varNames]

theorem tells_addVariable {name : String} {scope : Scope}
    (h : r.addVariable name scope = .ok (r', events)) : Tells r r' events := by
  obtain ⟨scope', -, -, rfl, rfl⟩ := addVariable_eq_ok h
  simp [Tells, Observed.learn, Observed.update, Observed.of, customBreeds]

/-- A variable that is found for a change is the only one with its name. -/
theorem Coherent.not_mem_of_locateVariable {name : String} {before after : List Variable}
    {v : Variable} (hr : r.Coherent) (h : r.locateVariable name = .ok (before, v, after)) :
    r.vars = before ++ v :: after ∧ v.name ∉ before.map (·.name) := by
  obtain ⟨hsplit, -, -⟩ := locateVariable_eq_ok h
  have hnames := hr.nodup_varNames
  rw [hsplit, List.map_append, List.map_cons, List.nodup_append] at hnames
  refine ⟨hsplit, fun hmem => ?_⟩
  exact hnames.2.2 _ hmem _ List.mem_cons_self rfl

theorem Coherent.tells_renameVariable {old new : String} (hr : r.Coherent)
    (h : r.renameVariable old new = .ok (r', events)) : Tells r r' events := by
  obtain ⟨before, v, after, hlocate, -, rfl, rfl⟩ := renameVariable_eq_ok h
  obtain ⟨hsplit, hfirst⟩ := hr.not_mem_of_locateVariable hlocate
  simp only [Tells, List.foldl_cons, List.foldl_nil, Observed.learn, Observed.update, Observed.of,
    customBreeds, hsplit, List.map_append, List.map_cons]
  rw [replace_middle hfirst]

theorem Coherent.tells_removeVariable {name : String} (hr : r.Coherent)
    (h : r.removeVariable name = .ok (r', events)) : Tells r r' events := by
  obtain ⟨before, v, after, hlocate, rfl, rfl⟩ := removeVariable_eq_ok h
  obtain ⟨hsplit, hfirst⟩ := hr.not_mem_of_locateVariable hlocate
  simp only [Tells, List.foldl_cons, List.foldl_nil, Observed.learn, Observed.update, Observed.of,
    customBreeds, hsplit, List.map_append, List.map_cons]
  rw [erase_middle hfirst]

/-- The events of a change that is not refused lead a listener to the names after it. -/
theorem Coherent.tells_change {edit : RegistryEdit} (hr : r.Coherent)
    (h : edit.change r = .ok (r', events)) : Tells r r' events := by
  cases edit with
  | addBreed plural singular kind => exact tells_addBreed h
  | renameBreed old plural singular => exact hr.tells_renameBreed h
  | removeBreed name => exact hr.tells_removeBreed h
  | addVariable name scope => exact tells_addVariable h
  | renameVariable old new => exact hr.tells_renameVariable h
  | removeVariable name => exact hr.tells_removeVariable h
  | reset =>
      cases h
      rfl
  | restore snapshot =>
      obtain ⟨-, rfl⟩ := restore_eq_ok (r := r) h
      rfl

end Registries

/-- What one of the listeners is told, among the notifications of all of them. -/
def toldTo (listener : Nat) (log : List (Nat × RegistryEvent)) : List RegistryEvent :=
  (log.filter (·.1 == listener)).map (·.2)

theorem toldTo_append (listener : Nat) (log log' : List (Nat × RegistryEvent)) :
    toldTo listener (log ++ log') = toldTo listener log ++ toldTo listener log' := by
  simp [toldTo]

/-- Every listener is told every event, in the order of the events. -/
theorem toldTo_deliveries {listener listeners : Nat} (h : listener < listeners)
    (events : List RegistryEvent) : toldTo listener (deliveries listeners events) = events := by
  have honce : (List.range listeners).filter (· == listener) = [listener] := by
    rw [List.filter_beq, List.count_eq_one_of_mem List.nodup_range (List.mem_range.2 h)]
    rfl
  induction events with
  | nil => rfl
  | cons event rest ih =>
      have hsplit : deliveries listeners (event :: rest) =
          (List.range listeners).map (·, event) ++ deliveries listeners rest := rfl
      rw [hsplit, toldTo_append, ih, toldTo, List.filter_map]
      simp [Function.comp_def, honce]

namespace RegistryEdit

/-- The events of an edit; a refused one has none. -/
def events (r : Registries) (edit : RegistryEdit) : List RegistryEvent :=
  match edit.change r with
  | .ok (_, events) => events
  | .error _ => []

/-- The notifications of the listeners over a run of edits. -/
def log (listeners : Nat) : Registries → List RegistryEdit → List (Nat × RegistryEvent)
  | _, [] => []
  | r, edit :: rest => deliveries listeners (edit.events r) ++ log listeners (edit.apply r) rest

/-- The events of a run of edits. -/
def history : Registries → List RegistryEdit → List RegistryEvent
  | _, [] => []
  | r, edit :: rest => edit.events r ++ history (edit.apply r) rest

/-- The names that one of the listeners has kept over a run of edits. -/
def observe (listener listeners : Nat) : Registries → Observed → List RegistryEdit → Observed
  | _, o, [] => o
  | r, o, edit :: rest =>
    let told := toldTo listener (deliveries listeners (edit.events r))
    observe listener listeners (edit.apply r) (told.foldl (Observed.learn (edit.apply r)) o) rest

theorem refused {r : Registries} {edit : RegistryEdit} {e : RegistryError}
    (h : edit.change r = .error e) : edit.apply r = r ∧ edit.events r = [] := by
  simp only [apply, events, h, and_self]

theorem toldTo_log {listener listeners : Nat} (h : listener < listeners) (r : Registries)
    (edits : List RegistryEdit) : toldTo listener (log listeners r edits) = history r edits := by
  induction edits generalizing r with
  | nil => rfl
  | cons edit rest ih => rw [log, toldTo_append, toldTo_deliveries h, ih, history]

/-- One edit, refused or not, leads a listener to the names after it. -/
theorem learn_events {r : Registries} (hr : r.Coherent) (edit : RegistryEdit) :
    (edit.events r).foldl (Observed.learn (edit.apply r)) (.of r) = .of (edit.apply r) := by
  cases h : edit.change r with
  | error e =>
      obtain ⟨happly, hevents⟩ := refused h
      rw [happly, hevents]
      rfl
  | ok changed =>
      obtain ⟨r', events'⟩ := changed
      have happly : edit.apply r = r' := by simp only [apply, h]
      have hevents : edit.events r = events' := by simp only [events, h]
      rw [happly, hevents]
      exact hr.tells_change h

theorem observe_eq {listener listeners : Nat} (h : listener < listeners) {r : Registries}
    (hr : r.Coherent) (edits : List RegistryEdit) :
    observe listener listeners r (.of r) edits = .of (run r edits) := by
  induction edits generalizing r with
  | nil => rfl
  | cons edit rest ih =>
      rw [observe, toldTo_deliveries h, learn_events hr]
      exact ih (hr.apply edit)

/-- After any edits of a model without declarations a listener that was there from the start has
the names of the present registries from what it was told; all listeners are told the same events
in the same order; and a refused edit changes nothing and tells nothing. -/
theorem observe_run_empty (edits : List RegistryEdit) (listeners : Nat) :
    (∀ listener < listeners,
      observe listener listeners .empty ⟨[], []⟩ edits = .of (run .empty edits) ∧
        toldTo listener (log listeners .empty edits) = history .empty edits) ∧
      ∀ (edit : RegistryEdit) (e : RegistryError), edit.change (run .empty edits) = .error e →
        edit.apply (run .empty edits) = run .empty edits ∧
          deliveries listeners (edit.events (run .empty edits)) = [] := by
  refine ⟨fun listener hlistener => ⟨?_, toldTo_log hlistener .empty edits⟩, ?_⟩
  · exact observe_eq hlistener Registries.coherent_empty edits
  · intro edit e h
    obtain ⟨happly, hevents⟩ := refused h
    rw [hevents]
    exact ⟨happly, rfl⟩

theorem apply_renameBreed {r : Registries} {old plural singular : String}
    {before after : List Breed} {b : Breed} (hlocate : r.locateBreed old = .ok (before, b, after))
    (hnames : r.checkBreedNames [b.plural, b.singular] plural singular = .ok ()) :
    (RegistryEdit.renameBreed old plural singular).apply r =
      ⟨before ++ { b with plural, singular } :: after,
        r.vars.map (Variable.follow b.plural plural)⟩ := by
  simp only [apply, change, Registries.renameBreed_of_check hlocate hnames]

/-- A breed that is declared and then renamed by its singular in another case. -/
def packEdits : List RegistryEdit :=
  [.addBreed "wolves" "wolf" .turtle, .renameBreed "WOLF" "dogs" "dog"]

theorem run_packEdits : run .empty packEdits =
    ⟨Registries.builtinBreeds ++ [⟨"dogs", "dog", .turtle, false⟩], []⟩ := by
  have hadd : (RegistryEdit.addBreed "wolves" "wolf" .turtle).apply .empty =
      ⟨Registries.builtinBreeds ++ [⟨"wolves", "wolf", .turtle, false⟩], []⟩ := by decide +kernel
  have hothers : ∀ b ∈ Registries.builtinBreeds, b.answersTo "WOLF" = false := by decide +kernel
  have hanswers : Breed.answersTo ⟨"wolves", "wolf", .turtle, false⟩ "WOLF" = true := by
    have hupper : fold "WOLF" = "wolf" := by decide +kernel
    have hlower : fold "wolf" = "wolf" := by decide +kernel
    rw [Breed.answersTo, sameName_iff.2 (hlower.trans hupper.symm), Bool.or_true]
  have hlocate := Registries.locateBreed_of_answersTo
    (r := ⟨Registries.builtinBreeds ++ [⟨"wolves", "wolf", .turtle, false⟩], []⟩)
    rfl rfl hothers hanswers
  have hnames : Registries.checkBreedNames
      ⟨Registries.builtinBreeds ++ [⟨"wolves", "wolf", .turtle, false⟩], []⟩ ["wolves", "wolf"]
      "dogs" "dog" = .ok () := by decide +kernel
  have hrename := apply_renameBreed hlocate hnames
  simp only [run, packEdits, List.foldl_cons, List.foldl_nil, hadd, hrename]
  rfl

theorem observe_packEdits :
    observe 1 2 .empty ⟨[], []⟩ packEdits = ⟨["dogs"], []⟩ ∧
      toldTo 1 (log 2 .empty packEdits) = history .empty packEdits ∧
      (RegistryEdit.removeBreed "turtle").apply (run .empty packEdits) =
        run .empty packEdits := by
  have hrefused : (RegistryEdit.removeBreed "turtle").change (run .empty packEdits) =
      .error (.protectedEntry "turtle") := by
    rw [run_packEdits]
    simp [change, Registries.removeBreed, Registries.locateBreed, Registries.builtinBreeds,
      locate?, Breed.answersTo]
  obtain ⟨hlisteners, herror⟩ := observe_run_empty packEdits 2
  obtain ⟨hobserve, htold⟩ := hlisteners 1 (by decide)
  refine ⟨?_, htold, (herror _ _ hrefused).1⟩
  rw [hobserve, run_packEdits]
  rfl

end RegistryEdit

end AgentBlocks
