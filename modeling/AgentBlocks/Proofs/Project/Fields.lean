import AgentBlocks.Project.Decode
import AgentBlocks.Proofs.Number.Reading

/-!
What a project file puts into the fields of a block. Each literal is read from a part of the file,
so a number among them is finite.
-/
namespace AgentBlocks

theorem Dict.exists_of_get?_ofList {α : Type} {es : List (String × α)} {key : String} {value : α}
    (h : (ofList es).get? key = some value) : ∃ e ∈ es, e.2 = value := by
  induction es using List.reverseRecOn with
  | nil => cases h
  | append_singleton es last ih =>
      rw [ofList, List.foldl_append, List.foldl_cons, List.foldl_nil, get?_insert] at h
      split at h
      · exact ⟨last, List.mem_append_right _ List.mem_cons_self, Option.some.inj h⟩
      · obtain ⟨e, he, hvalue⟩ := ih h
        exact ⟨e, List.mem_append_left _ he, hvalue⟩

theorem exists_of_mapM {α β : Type} {f : α → Option β} {as : List α} {bs : List β}
    (h : as.mapM f = some bs) {b : β} (hb : b ∈ bs) : ∃ a ∈ as, f a = some b := by
  induction as generalizing bs with
  | nil =>
      cases h
      cases hb
  | cons a as ih =>
      simp only [List.mapM_cons, Option.bind_eq_bind, Option.bind_eq_some_iff,
        Option.pure_def, Option.some.injEq] at h
      obtain ⟨first, hfirst, rest, hrest, rfl⟩ := h
      rcases List.mem_cons.1 hb with rfl | hb
      · exact ⟨a, List.mem_cons_self, hfirst⟩
      · obtain ⟨a', ha', hread⟩ := ih hrest hb
        exact ⟨a', List.mem_cons_of_mem _ ha', hread⟩

/-- Each value of a dictionary is read from a part of the text. -/
theorem Json.exists_of_dict? {α : Type} {read : Json → Option α} {j : Json} {d : Dict α}
    (h : dict? read j = some d) {key : String} {value : α} (hvalue : d.get? key = some value) :
    ∃ part, read part = some value := by
  simp only [dict?, Option.bind_eq_bind, Option.bind_eq_some_iff, Option.pure_def,
    Option.some.injEq] at h
  obtain ⟨members, -, entries, hentries, rfl⟩ := h
  obtain ⟨e, he, rfl⟩ := Dict.exists_of_get?_ofList hvalue
  obtain ⟨m, -, hm⟩ := exists_of_mapM hentries he
  obtain ⟨v, hv, rfl⟩ := Option.map_eq_some_iff.1 hm
  exact ⟨m.2, hv⟩

theorem Block.exists_of_ofJson? {j : Json} {b : Block} (h : ofJson? j = some b) {name : String}
    {value : FieldValue} (hvalue : b.field? name = some value) :
    ∃ part, FieldValue.ofJson? part = some value := by
  simp only [ofJson?, Option.bind_eq_bind, Option.bind_eq_some_iff] at h
  obtain ⟨members, -, h⟩ := h
  split at h
  · rename_i fields _ _ _ _ _ _
    simp only [Option.bind_eq_some_iff] at h
    obtain ⟨type, -, read, hread, inputs, -, statements, -, next, -, topLevel, -, x, -, y, -,
      heq⟩ := h
    cases heq
    cases fields with
    | none =>
        cases hread
        cases hvalue
    | some part => exact Json.exists_of_dict? hread hvalue
  · cases h

/-- A number that is read from a project file is finite. -/
theorem FieldValue.isFinite_of_ofJson? {j : Json} {v : Binary64}
    (h : ofJson? j = some (.number v)) : v.isFinite = true := by
  cases j with
  | number n =>
      obtain ⟨_, hvalue, heq⟩ := Option.map_eq_some_iff.1 h
      cases heq
      exact Numeral.isFinite_of_binary64? hvalue
  | string s =>
      obtain ⟨_, _, heq⟩ := Option.map_eq_some_iff.1 h
      cases heq
  | _ => cases h

end AgentBlocks
