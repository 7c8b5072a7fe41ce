import AgentBlocks.Catalog.Standard
import AgentBlocks.Proofs.Registry.Coherence
import AgentBlocks.Proofs.Session.Run

/-!
Several edits of the registries in one action of a session. The action stops at the first edit that
is refused, and what the edits before it have changed stays: it is neither taken back nor does the
session generate its program anew. So an action changes all or nothing only when no accepted edit
comes before a refused one, or when those that come have no effect together.
-/
namespace AgentBlocks

namespace RegistryEdit

variable {r : Registries}

/-- Each of the edits is accepted by the registries that the ones before it leave. -/
def AllAccepted (r : Registries) : List RegistryEdit → Prop
  | [] => True
  | edit :: rest => (edit.change r).isOk ∧ AllAccepted (edit.apply r) rest

/-- The edits up to the first that is refused, and what comes after it. -/
structure RefusedAt (r : Registries) (edits done : List RegistryEdit) (refused : RegistryEdit)
    (e : RegistryError) : Prop where
  split : ∃ rest, edits = done ++ refused :: rest
  accepted : AllAccepted r done
  error : refused.change (run r done) = .error e

theorem apply_of_change {edit : RegistryEdit} {changed : Registries × List RegistryEvent}
    (h : edit.change r = .ok changed) : edit.apply r = changed.1 := by
  rw [apply, h]

theorem performEdits_cons_of_ok {edit : RegistryEdit} {rest : List RegistryEdit}
    {changed : Registries × List RegistryEvent} (h : edit.change r = .ok changed) :
    performEdits (edit :: rest) r = performEdits rest (edit.apply r) := by
  rw [performEdits, h, apply_of_change h]

theorem performEdits_of_allAccepted {edits : List RegistryEdit} (h : AllAccepted r edits) :
    performEdits edits r = (.ok (), run r edits) := by
  induction edits generalizing r with
  | nil => rfl
  | cons edit rest ih =>
      obtain ⟨hedit, hrest⟩ := h
      cases hchange : edit.change r with
      | error e =>
          rw [hchange] at hedit
          cases hedit
      | ok changed =>
          rw [performEdits_cons_of_ok hchange, ih hrest]
          rfl

theorem performEdits_of_refusedAt {edits done : List RegistryEdit} {refused : RegistryEdit}
    {e : RegistryError} (h : RefusedAt r edits done refused e) :
    performEdits edits r = (.error e, run r done) := by
  obtain ⟨⟨rest, rfl⟩, haccepted, herror⟩ := h
  induction done generalizing r with
  | nil =>
      have hrefused : refused.change r = .error e := herror
      rw [List.nil_append, performEdits, hrefused]
      rfl
  | cons edit done ih =>
      obtain ⟨hedit, hdone⟩ := haccepted
      cases hchange : edit.change r with
      | error e =>
          rw [hchange] at hedit
          cases hedit
      | ok changed =>
          rw [List.cons_append, performEdits_cons_of_ok hchange, ih hdone herror]
          rfl

/-- All edits are accepted, or there is a first one that is refused. -/
theorem allAccepted_or_refusedAt (r : Registries) (edits : List RegistryEdit) :
    AllAccepted r edits ∨ ∃ done refused e, RefusedAt r edits done refused e := by
  induction edits generalizing r with
  | nil => exact .inl trivial
  | cons edit rest ih =>
      cases hchange : edit.change r with
      | error e => exact .inr ⟨[], edit, e, ⟨rest, rfl⟩, trivial, hchange⟩
      | ok changed =>
          have hedit : (edit.change r).isOk := by
            rw [hchange]
            rfl
          rcases ih (edit.apply r) with hrest | ⟨done, refused, e, ⟨later, rfl⟩, hdone, herror⟩
          · exact .inl ⟨hedit, hrest⟩
          · exact .inr ⟨edit :: done, refused, e, ⟨later, rfl⟩, ⟨hedit, hdone⟩, herror⟩

end RegistryEdit

namespace Session

open RegistryEdit (AllAccepted RefusedAt allAccepted_or_refusedAt performEdits_of_allAccepted
  performEdits_of_refusedAt)

variable {s : Session} {edits : List RegistryEdit}

/-- Without an error the output is the program of the present registries and graph. -/
def UpToDate (s : Session) : Prop := s.lastError ≠ none ∨ s.program = .ok s.output

/-- An action that fails changes nothing, and the session stays up to date in any case. -/
structure AllOrNothing {α : Type} (s : Session) (action : RegistryAction α) : Prop where
  refused : ∀ e, (s.editRegistries action).1 = .error e →
    let s' := (s.editRegistries action).2
    s'.registries = s.registries ∧ s'.output = s.output ∧ s'.lastError = s.lastError
  upToDate : s.UpToDate → (s.editRegistries action).2.UpToDate

theorem upToDate_regenerate (s : Session) : s.regenerate.UpToDate := by
  have hlatest : s.output = (latestText [.ok s.output]).getD "" := rfl
  have hcurrent := current_regenerate hlatest
  by_cases hnone : s.regenerate.lastError = none
  · exact .inr (hcurrent.output hnone)
  · exact .inl hnone

theorem editRegistries_of_allAccepted (h : AllAccepted s.registries edits) :
    s.editRegistries (performEdits edits) =
      (.ok (), { s with registries := RegistryEdit.run s.registries edits }.regenerate) := by
  rw [editRegistries, performEdits_of_allAccepted h]

theorem editRegistries_of_refusedAt {done : List RegistryEdit} {refused : RegistryEdit}
    {e : RegistryError} (h : RefusedAt s.registries edits done refused e) :
    s.editRegistries (performEdits edits) =
      (.error e, { s with registries := RegistryEdit.run s.registries done }) := by
  rw [editRegistries, performEdits_of_refusedAt h]

theorem allOrNothing_iff (s : Session) (edits : List RegistryEdit) :
    s.AllOrNothing (performEdits edits) ↔ ∀ done refused e,
      RefusedAt s.registries edits done refused e →
        RegistryEdit.run s.registries done = s.registries := by
  constructor
  · intro hall done refused e h
    have hrefused := hall.refused e
    rw [editRegistries_of_refusedAt h] at hrefused
    exact (hrefused rfl).1
  · intro hsame
    rcases allAccepted_or_refusedAt s.registries edits with h | ⟨done, refused, e, h⟩
    · refine ⟨fun e hrefused => ?_, fun _ => ?_⟩
      · rw [editRegistries_of_allAccepted h] at hrefused
        cases hrefused
      · rw [editRegistries_of_allAccepted h]
        exact upToDate_regenerate _
    · have hnothing : s.editRegistries (performEdits edits) = (.error e, s) := by
        rw [editRegistries_of_refusedAt h, hsame done refused e h]
      refine ⟨fun _ _ => ?_, fun hs => ?_⟩
      · rw [hnothing]
        exact ⟨rfl, rfl, rfl⟩
      · rw [hnothing]
        exact hs

/-- What becomes of a session by an action that performs edits up to the first that is refused. When
all are accepted, it generates the program of the new registries and is up to date. Otherwise it has
the registries that the accepted edits leave, and all else is as before. So the action changes all
or nothing exactly when the edits before the refused one leave the registries as they were. -/
theorem editRegistries_performEdits (s : Session) (edits : List RegistryEdit) :
    (AllAccepted s.registries edits →
        s.editRegistries (performEdits edits) =
          (.ok (), { s with registries := RegistryEdit.run s.registries edits }.regenerate) ∧
        (s.editRegistries (performEdits edits)).2.UpToDate) ∧
      (¬AllAccepted s.registries edits → ∃ done refused e,
        RefusedAt s.registries edits done refused e ∧
        s.editRegistries (performEdits edits) =
          (.error e, { s with registries := RegistryEdit.run s.registries done })) ∧
      (s.AllOrNothing (performEdits edits) ↔ ∀ done refused e,
        RefusedAt s.registries edits done refused e →
          RegistryEdit.run s.registries done = s.registries) := by
  refine ⟨fun haccepted => ?_, fun hnot => ?_, s.allOrNothing_iff edits⟩
  · have hedit := editRegistries_of_allAccepted haccepted
    refine ⟨hedit, ?_⟩
    rw [hedit]
    exact upToDate_regenerate _
  · rcases allAccepted_or_refusedAt s.registries edits with h | ⟨done, refused, e, h⟩
    · exact absurd h hnot
    · exact ⟨done, refused, e, h, editRegistries_of_refusedAt h⟩

/-- The same breed is declared twice in one action. -/
def wolvesTwice : List RegistryEdit :=
  [.addBreed "wolves" "wolf" .turtle, .addBreed "wolves" "wolf" .turtle]

theorem not_allOrNothing_wolvesTwice :
    (new .standard).UpToDate ∧
      ((new .standard).editRegistries (performEdits wolvesTwice)).1 =
        .error (.duplicateName "wolves") ∧
      ((new .standard).editRegistries (performEdits wolvesTwice)).2.registries.customBreeds =
        [⟨"wolves", "wolf", .turtle, false⟩] ∧
      ¬((new .standard).editRegistries (performEdits wolvesTwice)).2.UpToDate ∧
      ¬(new .standard).AllOrNothing (performEdits wolvesTwice) := by
  have hbefore : (new .standard).UpToDate := .inr (by decide +kernel)
  have hafter : ¬((new .standard).editRegistries (performEdits wolvesTwice)).2.UpToDate := by
    unfold UpToDate
    decide +kernel
  refine ⟨hbefore, by decide +kernel, by decide +kernel, hafter, fun h => ?_⟩
  exact hafter (h.upToDate hbefore)

end Session

end AgentBlocks
