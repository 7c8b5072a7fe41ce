import AgentBlocks.Registry.Basic

/-!
Edits of the registries. An edit either fails, and then nothing changes, or gives the new
registries and the events that tell what changed.
-/
namespace AgentBlocks

open Text

inductive RegistryError where
  | duplicateName (name : String)
  | reservedWord (name : String)
  | invalidName (name : String)
  | notFound (name : String)
  | protectedEntry (name : String)
  | invalidKind (name : String)
deriving DecidableEq

def RegistryError.message : RegistryError → String
  | .duplicateName name => "The name '" ++ name ++ "' is already in use."
  | .reservedWord name => "'" ++ name ++ "' is a reserved word and cannot be used as a name."
  | .invalidName name =>
    "'" ++ name ++
      "' is not a valid name (letters, digits, '-' and '_', not starting with a digit)."
  | .notFound name => "No entry named '" ++ name ++ "'."
  | .protectedEntry name => "'" ++ name ++ "' is built in and cannot be changed or removed."
  | .invalidKind name => "Patches cannot be given a custom breed ('" ++ name ++ "')."

/-- The two lists of the registries. -/
inductive Namespace where
  | breeds
  | vars
deriving DecidableEq

/-- A change that listeners are told about. -/
inductive RegistryEvent where
  | added (space : Namespace) (name : String)
  | renamed (space : Namespace) (old new : String)
  | removed (space : Namespace) (name : String)
  | reset
deriving DecidableEq

/-- The first entry with a property, between what precedes and what follows it. -/
def locate? {α : Type} (p : α → Bool) : List α → Option (List α × α × List α)
  | [] => none
  | a :: rest =>
    if p a then some ([], a, rest)
    else (locate? p rest).map fun (before, b, after) => (a :: before, b, after)

theorem eq_of_locate? {α : Type} {p : α → Bool} {l before after : List α} {a : α}
    (h : locate? p l = some (before, a, after)) :
    l = before ++ a :: after ∧ p a = true ∧ ∀ b ∈ before, p b = false := by
  induction l generalizing before with
  | nil => simp [locate?] at h
  | cons b rest ih =>
    rw [locate?] at h
    split at h
    · rename_i hb
      simp only [Option.some.injEq, Prod.mk.injEq] at h
      obtain ⟨rfl, rfl, rfl⟩ := h
      exact ⟨rfl, hb, by simp⟩
    · rename_i hb
      obtain ⟨⟨before', b', after'⟩, hloc, heq⟩ := Option.map_eq_some_iff.1 h
      simp only [Prod.mk.injEq] at heq
      obtain ⟨rfl, rfl, rfl⟩ := heq
      obtain ⟨rfl, hp, hbefore⟩ := ih hloc
      refine ⟨rfl, hp, fun c hc => ?_⟩
      rcases List.mem_cons.1 hc with rfl | hc
      · simpa using hb
      · exact hbefore c hc

namespace Registries

/-- The new registries with the events of the change, or the reason why nothing changes. -/
abbrev Change := Except RegistryError (Registries × List RegistryEvent)

/-- Checks a name that an entry is to carry. The names in `own` belong to the entry itself, and
only its other spellings may take them. -/
def checkName (r : Registries) (own : List String) (name : String) : Except RegistryError Unit :=
  if !isValidName name then .error (.invalidName name)
  else if r.names.any fun used => sameName used name && !own.any (sameName · used) then
    .error (.duplicateName name)
  else if isReservedWord name then .error (.reservedWord name)
  else .ok ()

/-- Checks the two names of a breed; they must differ from each other too. -/
def checkBreedNames (r : Registries) (own : List String) (plural singular : String) :
    Except RegistryError Unit := do
  r.checkName own plural
  r.checkName own singular
  if sameName plural singular then .error (.duplicateName singular) else .ok ()

/-- Finds the breed that answers to a name, which must not be a built-in one. -/
def locateBreed (r : Registries) (name : String) :
    Except RegistryError (List Breed × Breed × List Breed) :=
  match locate? (·.answersTo name) r.breeds with
  | none => .error (.notFound name)
  | some (before, b, after) =>
    if b.builtin then .error (.protectedEntry name) else .ok (before, b, after)

def locateVariable (r : Registries) (name : String) :
    Except RegistryError (List Variable × Variable × List Variable) :=
  match locate? (fun v => sameName v.name name) r.vars with
  | none => .error (.notFound name)
  | some found => .ok found

/-- The scope with the plural of its breed spelled as declared. -/
def resolveScope (r : Registries) : Scope → Except RegistryError Scope
  | .breed owner =>
    match r.breeds.find? fun b => !b.builtin && sameName b.plural owner with
    | none => .error (.notFound owner)
    | some b => .ok (.breed b.plural)
  | scope => .ok scope

def addBreed (r : Registries) (plural singular : String) (kind : BreedKind) : Change :=
  if kind = .patch then .error (.invalidKind plural) else do
    r.checkBreedNames [] plural singular
    return ({ r with breeds := r.breeds ++ [⟨plural, singular, kind, false⟩] },
      [.added .breeds plural])

/-- Renames the breed that answers to `old`; the variables it owns follow it. -/
def renameBreed (r : Registries) (old plural singular : String) : Change := do
  let (before, b, after) ← r.locateBreed old
  r.checkBreedNames [b.plural, b.singular] plural singular
  return ({
      breeds := before ++ { b with plural, singular } :: after
      vars := r.vars.map fun v =>
        if v.scope.isOwnedBy b.plural then { v with scope := .breed plural } else v },
    [.renamed .breeds b.plural plural])

/-- Removes the breed that answers to a name together with the variables it owns. -/
def removeBreed (r : Registries) (name : String) : Change := do
  let (before, b, after) ← r.locateBreed name
  let owned := r.vars.filter (·.scope.isOwnedBy b.plural)
  return ({
      breeds := before ++ after
      vars := r.vars.filter fun v => !v.scope.isOwnedBy b.plural },
    owned.map (fun v => .removed .vars v.name) ++ [.removed .breeds b.plural])

def addVariable (r : Registries) (name : String) (scope : Scope) : Change := do
  r.checkName [] name
  let scope ← r.resolveScope scope
  return ({ r with vars := r.vars ++ [⟨name, scope⟩] }, [.added .vars name])

def renameVariable (r : Registries) (old new : String) : Change := do
  let (before, v, after) ← r.locateVariable old
  r.checkName [v.name] new
  return ({ r with vars := before ++ { v with name := new } :: after },
    [.renamed .vars v.name new])

def removeVariable (r : Registries) (name : String) : Change := do
  let (before, v, after) ← r.locateVariable name
  return ({ r with vars := before ++ after }, [.removed .vars v.name])

def reset (r : Registries) : Registries × List RegistryEvent :=
  ({ breeds := r.breeds.filter (·.builtin), vars := [] }, [.reset])

/-- The registries that declare the entries of a snapshot one after the other. -/
def ofSnapshot (s : Snapshot) : Except RegistryError Registries := do
  let r ← s.breeds.foldlM (fun r b => (·.1) <$> r.addBreed b.plural b.singular b.kind) empty
  s.vars.foldlM (fun r v => (·.1) <$> r.addVariable v.name v.scope) r

/-- Replaces everything that was declared by the entries of a snapshot. -/
def restore (_ : Registries) (s : Snapshot) : Change := do
  return (← ofSnapshot s, [.reset])

end Registries

inductive RegistryEdit where
  | addBreed (plural singular : String) (kind : BreedKind)
  | renameBreed (old plural singular : String)
  | removeBreed (name : String)
  | addVariable (name : String) (scope : Scope)
  | renameVariable (old new : String)
  | removeVariable (name : String)
  | reset
  | restore (snapshot : Snapshot)

namespace RegistryEdit

def change (r : Registries) : RegistryEdit → Registries.Change
  | .addBreed plural singular kind => r.addBreed plural singular kind
  | .renameBreed old plural singular => r.renameBreed old plural singular
  | .removeBreed name => r.removeBreed name
  | .addVariable name scope => r.addVariable name scope
  | .renameVariable old new => r.renameVariable old new
  | .removeVariable name => r.removeVariable name
  | .reset => .ok r.reset
  | .restore snapshot => r.restore snapshot

/-- The registries after an edit; a refused edit leaves them as they are. -/
def apply (r : Registries) (edit : RegistryEdit) : Registries :=
  match edit.change r with
  | .ok (r', _) => r'
  | .error _ => r

end RegistryEdit

/-- The notifications of events in order: each event goes to every listener in the order of their
subscription before the next event does. -/
def deliveries (listeners : Nat) (events : List RegistryEvent) : List (Nat × RegistryEvent) :=
  events.flatMap fun event => (List.range listeners).map fun listener => (listener, event)

end AgentBlocks
