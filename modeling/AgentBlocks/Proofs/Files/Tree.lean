import AgentBlocks.Proofs.Files.Place

/-!
Reading of files. A file is read under the path of its place as under any other path to it, and
after a text has been written under a path, that text is read there.
-/
namespace AgentBlocks.Files

theorem decodeText?_encodeText (s : String) : decodeText? (encodeText s) = some s := by
  have hbytes : (⟨(encodeText s).toArray⟩ : ByteArray) = s.toByteArray := by
    simp [encodeText]
  rw [decodeText?, hbytes, String.fromUTF8?, dif_pos s.isValidUTF8]
  rfl

namespace Tree

variable {t t' : Tree} {p q place : Place} {path : String} {bytes : List UInt8} {e : Entry}

theorem find_put_self (hne : place.names ≠ []) : entry? (t.put place e) place = some e := by
  have hmissing : (t.entries.filter (·.1 != place)).find? (·.1 == place) = none := by
    simp
  unfold entry?
  rw [if_neg (by simpa using hne), put, List.find?_append, hmissing]
  simp

theorem find_put_of_ne (hne : p ≠ place) : entry? (t.put place e) p = entry? t p := by
  have hsame : (t.put place e).entries.find? (·.1 == p) = t.entries.find? (·.1 == p) := by
    have hlast : ([(place, e)] : List (Place × Entry)).find? (·.1 == p) = none := by
      simp [Ne.symm hne]
    rw [put, List.find?_append, hlast, Option.or_none, List.find?_filter]
    congr 1
    funext entry
    by_cases hp : entry.1 = p <;> simp [hp, hne]
  unfold entry?
  rw [hsame]

/-- Steps lead on where all directories are still there. -/
theorem Follows.mono {parts : List String} (hfollow : t.Follows p parts q)
    (h : ∀ p, t.isDirectory p = true → t'.isDirectory p = true) : t'.Follows p parts q := by
  induction hfollow with
  | here => exact .here
  | idle hidle _ ih => exact .idle hidle ih
  | above _ ih => exact .above ih
  | last hstep => exact .last hstep
  | down hstep hdirectory _ ih => exact .down hstep (h _ hdirectory) ih

theorem write_eq_some : t.write path bytes = some t' ↔ ∃ place, t.place? path = some place ∧
    t.isDirectory place = false ∧ t' = t.put place (.file bytes) := by
  simp only [write, Option.bind_eq_bind, Option.bind_eq_some_iff]
  refine exists_congr fun place => and_congr_right fun _ => ?_
  cases t.isDirectory place <;> simp [eq_comm]

/-- What was written is found. -/
theorem named?_write (h : t.write path bytes = some t') :
    t'.named? path = some (.file bytes) := by
  obtain ⟨place, hplace, hfree, rfl⟩ := write_eq_some.1 h
  have hne : place.names ≠ [] := by
    intro hnames
    rw [isDirectory_of_nil hnames] at hfree
    cases hfree
  have hkeep : ∀ p, t.isDirectory p = true → (t.put place (.file bytes)).isDirectory p = true := by
    intro p hp
    have hother : p ≠ place := by
      rintro rfl
      rw [hp] at hfree
      cases hfree
    rw [isDirectory, find_put_of_ne hother]
    exact hp
  have hfound : (t.put place (.file bytes)).place? path = some place := by
    unfold place? at hplace ⊢
    split at hplace
    · cases hplace
    · rename_i hpath
      rw [if_neg hpath]
      exact followSteps_eq_some.2 ((followSteps_eq_some.1 hplace).mono hkeep)
  rw [named?, hfound, Option.bind_some, find_put_self hne]

theorem readText_write {text : String} (h : t.write path (encodeText text) = some t') :
    t'.readText path = some text := by
  rw [readText, named?_write h]
  exact decodeText?_encodeText text

/-- A file with a text stands at the place of its path, and is read under the path of that place. -/
theorem readText_path {text : String} (h : t.readText path = some text) :
    ∃ place bytes, t.place? path = some place ∧ t.entry? place = some (.file bytes) ∧
      t.readText place.path = some text := by
  unfold readText at h
  split at h
  · rename_i bytes hnamed
    obtain ⟨place, hplace, hentry⟩ := Option.bind_eq_some_iff.1 hnamed
    have hne : place.names ≠ [] := by
      intro hnames
      simp [hnames, entry?] at hentry
    refine ⟨place, bytes, hplace, hentry, ?_⟩
    rw [readText, named?, place?_path hplace hne, Option.bind_some, hentry]
    exact h
  · cases h

end Tree

end AgentBlocks.Files
