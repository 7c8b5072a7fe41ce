import AgentBlocks.Registry.Edit
import Mathlib.Data.List.Basic

/-!
What the checks of the registries let pass, and what a change that is not refused makes of them.
-/
namespace AgentBlocks

open Text

theorem except_bind_eq_ok {ε α β : Type} {x : Except ε α} {f : α → Except ε β} {b : β} :
    x >>= f = .ok b ↔ ∃ a, x = .ok a ∧ f a = .ok b := by
  cases x with
  | error e =>
      constructor
      · intro h
        cases h
      · rintro ⟨a, h, -⟩
        cases h
  | ok a =>
      constructor
      · intro h
        exact ⟨a, rfl, h⟩
      · rintro ⟨a', ha, h⟩
        cases ha
        exact h

theorem locate?_append_cons {α : Type} {p : α → Bool} {before : List α} {a : α} (after : List α)
    (hbefore : ∀ b ∈ before, p b = false) (ha : p a = true) :
    locate? p (before ++ a :: after) = some (before, a, after) := by
  induction before with
  | nil => simp [locate?, ha]
  | cons b rest ih =>
      obtain ⟨hb, hrest⟩ := List.forall_mem_cons.1 hbefore
      simp [locate?, hb, ih hrest]

/-- A variable of the breed `old` follows it to its new plural. -/
def Variable.follow (old new : String) (v : Variable) : Variable :=
  if v.scope.isOwnedBy old then { v with scope := .breed new } else v

@[simp] theorem Variable.follow_name (old new : String) (v : Variable) :
    (v.follow old new).name = v.name := by
  unfold Variable.follow
  split <;> rfl

namespace Registries

variable {r r' : Registries} {own : List String} {events : List RegistryEvent}

/-- An entry that owns the names in `own` may carry the name. -/
structure Admits (r : Registries) (own : List String) (name : String) : Prop where
  valid : isValidName name = true
  free : ∀ used ∈ r.names, fold used = fold name → fold used ∈ own.map fold
  unreserved : isReservedWord name = false

theorem taken_eq_false (r : Registries) (own : List String) (name : String) :
    (r.names.any fun used => sameName used name && !own.any (sameName · used)) = false ↔
      ∀ used ∈ r.names, fold used = fold name → fold used ∈ own.map fold := by
  simp [sameName]

theorem checkName_eq_ok {name : String} : r.checkName own name = .ok () ↔ r.Admits own name := by
  have htaken := taken_eq_false r own name
  unfold checkName
  constructor
  · intro h
    split at h
    · cases h
    · rename_i hvalid
      split at h
      · cases h
      · rename_i hfree
        split at h
        · cases h
        · rename_i hword
          exact ⟨by simpa using hvalid, htaken.1 (by simpa only [Bool.not_eq_true] using hfree),
            by simpa using hword⟩
  · intro h
    rw [if_neg (by simp [h.valid]), if_neg (by simp only [htaken.2 h.free, Bool.false_eq_true,
      not_false_eq_true]), if_neg (by simp [h.unreserved])]

theorem checkBreedNames_eq_ok {plural singular : String} :
    r.checkBreedNames own plural singular = .ok () ↔
      r.Admits own plural ∧ r.Admits own singular ∧ fold plural ≠ fold singular := by
  unfold checkBreedNames
  rw [except_bind_eq_ok]
  constructor
  · rintro ⟨⟨⟩, hplural, h⟩
    obtain ⟨⟨⟩, hsingular, h⟩ := except_bind_eq_ok.1 h
    refine ⟨checkName_eq_ok.1 hplural, checkName_eq_ok.1 hsingular, ?_⟩
    intro hsame
    rw [if_pos (sameName_iff.2 hsame)] at h
    cases h
  · rintro ⟨hplural, hsingular, hne⟩
    refine ⟨(), checkName_eq_ok.2 hplural,
      except_bind_eq_ok.2 ⟨(), checkName_eq_ok.2 hsingular, ?_⟩⟩
    rw [if_neg (mt sameName_iff.1 hne)]

theorem locateBreed_eq_ok {name : String} {before after : List Breed} {b : Breed}
    (h : r.locateBreed name = .ok (before, b, after)) :
    r.breeds = before ++ b :: after ∧ b.builtin = false ∧ b.answersTo name = true ∧
      ∀ c ∈ before, c.answersTo name = false := by
  unfold locateBreed at h
  split at h
  · cases h
  · rename_i hfound
    split at h
    · cases h
    · rename_i hcustom
      cases h
      obtain ⟨hsplit, hanswers, hbefore⟩ := eq_of_locate? hfound
      exact ⟨hsplit, by simpa using hcustom, hanswers, hbefore⟩

/-- The first breed that answers to a name is found. -/
theorem locateBreed_of_answersTo {name : String} {before after : List Breed} {b : Breed}
    (hsplit : r.breeds = before ++ b :: after) (hcustom : b.builtin = false)
    (hbefore : ∀ c ∈ before, c.answersTo name = false) (hanswers : b.answersTo name = true) :
    r.locateBreed name = .ok (before, b, after) := by
  have hfound : locate? (·.answersTo name) r.breeds = some (before, b, after) := by
    rw [hsplit]
    exact locate?_append_cons after hbefore hanswers
  simp [locateBreed, hfound, hcustom]

theorem locateVariable_eq_ok {name : String} {before after : List Variable} {v : Variable}
    (h : r.locateVariable name = .ok (before, v, after)) :
    r.vars = before ++ v :: after ∧ sameName v.name name = true ∧
      ∀ w ∈ before, sameName w.name name = false := by
  unfold locateVariable at h
  split at h
  · cases h
  · rename_i hfound
    cases h
    exact eq_of_locate? hfound

/-- A resolved scope that is a breed is spelled as a declared breed. -/
theorem resolveScope_eq_ok {scope scope' : Scope} (h : r.resolveScope scope = .ok scope')
    {owner : String} (howner : scope' = .breed owner) :
    ∃ b ∈ r.customBreeds, b.plural = owner := by
  subst howner
  cases scope with
  | breed asked =>
      simp only [resolveScope] at h
      split at h
      · cases h
      · rename_i b hfound
        cases h
        have hb := List.find?_some hfound
        simp only [Bool.and_eq_true] at hb
        exact ⟨b, List.mem_filter.2 ⟨List.mem_of_find?_eq_some hfound, hb.1⟩, rfl⟩
  | global => cases h
  | turtles => cases h
  | patches => cases h
  | links => cases h

theorem addBreed_eq_ok {plural singular : String} {kind : BreedKind}
    (h : r.addBreed plural singular kind = .ok (r', events)) :
    kind ≠ .patch ∧ r.checkBreedNames [] plural singular = .ok () ∧
      r' = { r with breeds := r.breeds ++ [⟨plural, singular, kind, false⟩] } ∧
      events = [.added .breeds plural] := by
  unfold addBreed at h
  split at h
  · cases h
  · rename_i hkind
    obtain ⟨⟨⟩, hnames, h⟩ := except_bind_eq_ok.1 h
    cases h
    exact ⟨hkind, hnames, rfl, rfl⟩

theorem renameBreed_eq_ok {old plural singular : String}
    (h : r.renameBreed old plural singular = .ok (r', events)) :
    ∃ before b after, r.locateBreed old = .ok (before, b, after) ∧
      r.checkBreedNames [b.plural, b.singular] plural singular = .ok () ∧
      r' = ⟨before ++ { b with plural, singular } :: after,
        r.vars.map (Variable.follow b.plural plural)⟩ ∧
      events = [.renamed .breeds b.plural plural] := by
  obtain ⟨⟨before, b, after⟩, hlocate, h⟩ := except_bind_eq_ok.1 h
  obtain ⟨⟨⟩, hnames, h⟩ := except_bind_eq_ok.1 h
  cases h
  exact ⟨before, b, after, hlocate, hnames, rfl, rfl⟩

theorem renameBreed_of_check {old plural singular : String} {before after : List Breed} {b : Breed}
    (hlocate : r.locateBreed old = .ok (before, b, after))
    (hnames : r.checkBreedNames [b.plural, b.singular] plural singular = .ok ()) :
    r.renameBreed old plural singular = .ok (⟨before ++ { b with plural, singular } :: after,
      r.vars.map (Variable.follow b.plural plural)⟩, [.renamed .breeds b.plural plural]) := by
  rw [renameBreed, hlocate]
  simp only [bind, Except.bind, hnames]
  rfl

theorem removeBreed_eq_ok {name : String} (h : r.removeBreed name = .ok (r', events)) :
    ∃ before b after, r.locateBreed name = .ok (before, b, after) ∧
      r' = ⟨before ++ after, r.vars.filter fun v => !v.scope.isOwnedBy b.plural⟩ ∧
      events = (r.vars.filter (·.scope.isOwnedBy b.plural)).map (fun v => .removed .vars v.name) ++
        [.removed .breeds b.plural] := by
  obtain ⟨⟨before, b, after⟩, hlocate, h⟩ := except_bind_eq_ok.1 h
  cases h
  exact ⟨before, b, after, hlocate, rfl, rfl⟩

theorem addVariable_eq_ok {name : String} {scope : Scope}
    (h : r.addVariable name scope = .ok (r', events)) :
    ∃ scope', r.checkName [] name = .ok () ∧ r.resolveScope scope = .ok scope' ∧
      r' = { r with vars := r.vars ++ [⟨name, scope'⟩] } ∧ events = [.added .vars name] := by
  obtain ⟨⟨⟩, hname, h⟩ := except_bind_eq_ok.1 h
  obtain ⟨scope', hscope, h⟩ := except_bind_eq_ok.1 h
  cases h
  exact ⟨scope', hname, hscope, rfl, rfl⟩

theorem renameVariable_eq_ok {old new : String}
    (h : r.renameVariable old new = .ok (r', events)) :
    ∃ before v after, r.locateVariable old = .ok (before, v, after) ∧
      r.checkName [v.name] new = .ok () ∧
      r' = { r with vars := before ++ { v with name := new } :: after } ∧
      events = [.renamed .vars v.name new] := by
  obtain ⟨⟨before, v, after⟩, hlocate, h⟩ := except_bind_eq_ok.1 h
  obtain ⟨⟨⟩, hname, h⟩ := except_bind_eq_ok.1 h
  cases h
  exact ⟨before, v, after, hlocate, hname, rfl, rfl⟩

theorem renameVariable_of_check {old new : String} {before after : List Variable} {v : Variable}
    (hlocate : r.locateVariable old = .ok (before, v, after))
    (hname : r.checkName [v.name] new = .ok ()) :
    r.renameVariable old new = .ok (⟨r.breeds, before ++ { v with name := new } :: after⟩,
      [.renamed .vars v.name new]) := by
  rw [renameVariable, hlocate]
  simp only [bind, Except.bind, hname]
  rfl

theorem removeVariable_eq_ok {name : String} (h : r.removeVariable name = .ok (r', events)) :
    ∃ before v after, r.locateVariable name = .ok (before, v, after) ∧
      r' = { r with vars := before ++ after } ∧ events = [.removed .vars v.name] := by
  obtain ⟨⟨before, v, after⟩, hlocate, h⟩ := except_bind_eq_ok.1 h
  cases h
  exact ⟨before, v, after, hlocate, rfl, rfl⟩

theorem restore_eq_ok {s : Snapshot} (h : r.restore s = .ok (r', events)) :
    ofSnapshot s = .ok r' ∧ events = [.reset] := by
  obtain ⟨restored, hrestored, h⟩ := except_bind_eq_ok.1 h
  cases h
  exact ⟨hrestored, rfl⟩

end Registries

end AgentBlocks
