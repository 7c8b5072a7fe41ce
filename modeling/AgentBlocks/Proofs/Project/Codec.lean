import AgentBlocks.Project.Decode
import AgentBlocks.Project.Encode
import AgentBlocks.Proofs.Json.RoundTrip
import AgentBlocks.Proofs.Text.Words
import Mathlib.Data.List.Nodup

/-!
Records, dictionaries and options as they are written: they are read back, also where a member is
left out because its value is the one that an absent member stands for.
-/
namespace AgentBlocks

namespace Dict

variable {α : Type}

theorem place_append {key : String} {value : α} {es : List (String × α)}
    (h : ∀ e ∈ es, Text.before e.1 key = true) : place key value es = es ++ [(key, value)] := by
  induction es with
  | nil => rfl
  | cons e rest ih =>
      obtain ⟨k, v⟩ := e
      obtain ⟨hk, hrest⟩ := List.forall_mem_cons.1 h
      have hnot : ¬Text.before key k = true := fun hback =>
        Text.ne_of_before (Text.before_trans hk hback) rfl
      rw [place, if_neg hnot, if_neg (Text.ne_of_before hk).symm, ih hrest, List.cons_append]

theorem foldl_insert (es : List (String × α)) (d : Dict α)
    (h : KeysIncrease (d.entries ++ es)) :
    (es.foldl (fun d e => d.insert e.1 e.2) d).entries = d.entries ++ es := by
  induction es generalizing d with
  | nil => simp
  | cons e rest ih =>
      have hlast : ∀ a ∈ d.entries, Text.before a.1 e.1 = true := fun a ha =>
        (List.pairwise_append.1 h).2.2 a ha e List.mem_cons_self
      have hentries : (d.insert e.1 e.2).entries = d.entries ++ [e] := place_append hlast
      rw [List.foldl_cons, ih _ (by rw [hentries]; simpa using h), hentries, List.append_assoc]
      rfl

/-- The entries of a dictionary, placed one after the other, give it back. -/
theorem ofList_entries (d : Dict α) : ofList d.entries = d :=
  Dict.ext (foldl_insert d.entries empty d.increase)

end Dict

namespace Json

variable {α : Type}

/-- The members of a record that are not left out. -/
def present (fields : List (String × Option Json)) : List (String × Json) :=
  fields.flatMap fun f => f.2.toList.map (f.1, ·)

theorem dictMember_eq (key : String) (write : α → Json) (d : Dict α) :
    dictMember key write d =
      present [(key, if d.isEmpty then none else some (d.toJson write))] := by
  unfold dictMember
  split <;> rfl

theorem optionMember_eq (key : String) (write : α → Json) (o : Option α) :
    optionMember key write o = present [(key, o.map write)] := by
  cases o <;> rfl

theorem members?_record (members : List (String × Json)) :
    (record members).members? = some members :=
  mapM_map_eq_some fun _ _ => rfl

theorem filter_present_of_not_mem {key : String} {fields : List (String × Option Json)}
    (h : key ∉ fields.map (·.1)) : (present fields).filter (·.1 == key) = [] := by
  rw [List.filter_eq_nil_iff]
  intro m hm hkey
  obtain ⟨f, hf, hm⟩ := List.mem_flatMap.1 hm
  obtain ⟨v, -, rfl⟩ := List.mem_map.1 hm
  exact h (List.mem_map.2 ⟨f, hf, by simpa using hkey⟩)

theorem memberOnce?_present {fields : List (String × Option Json)}
    (hnodup : (fields.map (·.1)).Nodup) {f : String × Option Json} (hf : f ∈ fields) :
    memberOnce? (present fields) f.1 = some f.2 := by
  obtain ⟨before, after, rfl⟩ := List.append_of_mem hf
  rw [List.map_append, List.map_cons, List.nodup_middle, List.nodup_cons, List.mem_append,
    not_or] at hnodup
  have hself : (present [f]).filter (·.1 == f.1) = present [f] := by
    simp [present]
  have hfilter : (present (before ++ f :: after)).filter (·.1 == f.1) = present [f] := by
    have hsplit : present (before ++ f :: after) =
        present before ++ (present [f] ++ present after) := by
      simp [present]
    rw [hsplit, List.filter_append, List.filter_append, filter_present_of_not_mem hnodup.1.1,
      filter_present_of_not_mem hnodup.1.2, hself, List.nil_append, List.append_nil]
  rw [memberOnce?, hfilter]
  obtain ⟨key, v⟩ := f
  cases v <;> rfl

theorem recordMembers?_present {fields : List (String × Option Json)}
    (hnodup : (fields.map (·.1)).Nodup) :
    recordMembers? (fields.map (·.1)) (record (present fields)) = some (fields.map (·.2)) := by
  have hmembers : recordMembers? (fields.map (·.1)) (record (present fields)) =
      (record (present fields)).members?.bind fun members =>
        (fields.map (·.1)).mapM (memberOnce? members) := rfl
  rw [hmembers, members?_record, Option.bind_some]
  exact mapM_map_eq_some_map fun f hf => memberOnce?_present hnodup hf

/-- The members of a record are found by their keys, those left out as absent. -/
theorem recordMembers?_record {keys : List String} {values : List (Option Json)}
    (hnodup : keys.Nodup) (hlength : keys.length = values.length) :
    recordMembers? keys (record (present (keys.zip values))) = some values := by
  have hkeys : (keys.zip values).map (·.1) = keys := List.map_fst_zip hlength.le
  have hvalues : (keys.zip values).map (·.2) = values := List.map_snd_zip hlength.ge
  have hfields : ((keys.zip values).map (·.1)).Nodup := by rwa [hkeys]
  have hread := recordMembers?_present hfields
  rwa [hkeys, hvalues] at hread

/-- What is written is read back. -/
def Recovers (write : α → Json) (read : Json → Option α) (a : α) : Prop := read (write a) = some a

theorem recovers_text (s : String) : Recovers text text? s := rfl

theorem recovers_list {write : α → Json} {read : Json → Option α} {items : List α}
    (h : ∀ a ∈ items, Recovers write read a) :
    Recovers (fun items => .array (items.map write)) (list? read) items :=
  mapM_map_eq_some h

theorem recovers_dict {write : α → Json} {read : Json → Option α} {d : Dict α}
    (h : ∀ e ∈ d.entries, Recovers write read e.2) :
    Recovers (Dict.toJson write) (dict? read) d := by
  have hentries : (d.entries.map fun e => (e.1, write e.2)).mapM
      (fun m => (read m.2).map fun v => (m.1, v)) = some d.entries := by
    refine mapM_map_eq_some fun e he => ?_
    rw [show read (write e.2) = some e.2 from h e he, Option.map_some]
  simp only [Recovers, dict?, Dict.toJson, members?_record, Option.bind_eq_bind, Option.bind_some,
    hentries, Option.pure_def, Dict.ofList_entries]

/-- A dictionary is read back also when it is empty and left out. -/
theorem optional?_dictMember {write : α → Json} {read : Json → Option α} {d : Dict α}
    (h : ∀ e ∈ d.entries, Recovers write read e.2) :
    optional? .empty (dict? read) (if d.isEmpty then none else some (d.toJson write)) = some d := by
  split
  · rename_i hempty
    exact congrArg some (Dict.ext (List.isEmpty_iff.1 hempty).symm)
  · exact recovers_dict h

/-- An option is read back, provided that nothing is written as null. -/
theorem optional?_optionMember {write : α → Json} {read : Json → Option α} {o : Option α}
    (hnull : ∀ a, write a ≠ .null) (h : ∀ a, Recovers write read a) :
    optional? none (nullable? read) (o.map write) = some o := by
  cases o with
  | none => rfl
  | some a =>
      have hread : read (write a) = some a := h a
      change nullable? read (write a) = some (some a)
      unfold nullable?
      split
      · rename_i hwritten
        exact absurd hwritten (hnull a)
      · rw [hread, Option.map_some]

section Legible

variable {write : α → Json}

theorem legible_text (s : String) : (text s).Legible := .string _

theorem legible_record {members : List (String × Json)} (h : ∀ m ∈ members, m.2.Legible) :
    (record members).Legible := .object (List.forall_mem_map.2 h)

theorem legible_list (h : ∀ a, (write a).Legible) (items : List α) :
    (Json.array (items.map write)).Legible := .array (List.forall_mem_map.2 fun a _ => h a)

theorem legible_dict (h : ∀ a, (write a).Legible) (d : Dict α) : (d.toJson write).Legible :=
  legible_record (List.forall_mem_map.2 fun e _ => h e.2)

theorem legible_dictMember (h : ∀ a, (write a).Legible) (key : String) (d : Dict α) :
    ∀ m ∈ dictMember key write d, m.2.Legible := by
  unfold dictMember
  split
  · nofun
  · exact List.forall_mem_singleton.2 (legible_dict h d)

theorem legible_optionMember (h : ∀ a, (write a).Legible) (key : String) (o : Option α) :
    ∀ m ∈ optionMember key write o, m.2.Legible := by
  cases o with
  | none => nofun
  | some a => exact List.forall_mem_singleton.2 (h a)

end Legible

end Json

end AgentBlocks
