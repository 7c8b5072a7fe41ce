import AgentBlocks.Proofs.Registry.Declarations
import AgentBlocks.Proofs.Registry.Naming
import AgentBlocks.Proofs.Registry.Observation

/-!
Names as addresses. An entry is found by any of its names and in any case, and an edit depends on
which entry it addresses, not on how the name is written. Only the refusal to change a built-in
breed repeats the name as it was given.
-/
namespace AgentBlocks

open Text

theorem answersTo_iff_mem {b : Breed} {name : String} :
    b.answersTo name = true ↔ fold name ∈ [fold b.plural, fold b.singular] := by
  rw [Breed.answersTo, Bool.or_eq_true, sameName_iff, sameName_iff, List.mem_pair, eq_comm,
    eq_comm (a := fold b.singular)]

namespace Registries

variable {r r' : Registries} {events : List RegistryEvent}

/-- Two names lead to a breed alike: it is found by both, and edits that address it by the one or
by the other are the same. Those that address a built-in breed are all refused. -/
structure AddressesBreed (r : Registries) (b : Breed) (m n : String) : Prop where
  finds : r.findBreed? m = some b ∧ r.findBreed? n = some b
  declared : b.builtin = false → r.removeBreed m = r.removeBreed n ∧
    ∀ plural singular, r.renameBreed m plural singular = r.renameBreed n plural singular
  builtin : b.builtin = true → ∀ name ∈ [m, n], ∀ plural singular,
    ∀ edit ∈ [RegistryEdit.removeBreed name, .renameBreed name plural singular],
      edit.change r = .error (.protectedEntry name) ∧ edit.apply r = r ∧ edit.events r = []

/-- Two names lead to a variable alike. -/
structure AddressesVariable (r : Registries) (v : Variable) (m n : String) : Prop where
  finds : r.findVariable? m = some v ∧ r.findVariable? n = some v
  remove : r.removeVariable m = r.removeVariable n
  rename : ∀ new, r.renameVariable m new = r.renameVariable n new

/-- The breed that is located is a declared one and answers to the name. -/
theorem locateBreed_mem {name : String} {before after : List Breed} {b : Breed}
    (h : r.locateBreed name = .ok (before, b, after)) :
    b ∈ r.customBreeds ∧ b.answersTo name = true := by
  obtain ⟨hsplit, hcustom, hanswers, -⟩ := locateBreed_eq_ok h
  exact ⟨List.mem_filter.2 ⟨by simp [hsplit], by simp [hcustom]⟩, hanswers⟩

theorem renameBreed_addresses {old plural singular : String}
    (h : r.renameBreed old plural singular = .ok (r', events)) :
    ∃ b ∈ r.customBreeds, b.answersTo old = true := by
  obtain ⟨before, b, after, hlocate, -⟩ := renameBreed_eq_ok h
  exact ⟨b, locateBreed_mem hlocate⟩

theorem removeBreed_addresses {name : String} (h : r.removeBreed name = .ok (r', events)) :
    ∃ b ∈ r.customBreeds, b.answersTo name = true := by
  obtain ⟨before, b, after, hlocate, -⟩ := removeBreed_eq_ok h
  exact ⟨b, locateBreed_mem hlocate⟩

theorem locateVariable_mem {name : String} {before after : List Variable} {v : Variable}
    (h : r.locateVariable name = .ok (before, v, after)) :
    v ∈ r.vars ∧ fold v.name = fold name := by
  obtain ⟨hsplit, hsame, -⟩ := locateVariable_eq_ok h
  exact ⟨by simp [hsplit], sameName_iff.1 hsame⟩

theorem Coherent.findBreed?_eq_some (hr : r.Coherent) {b : Breed} (hb : b ∈ r.breeds)
    {name : String} (hanswers : b.answersTo name = true) : r.findBreed? name = some b := by
  obtain ⟨before, after, hsplit⟩ := List.append_of_mem hb
  obtain ⟨-, -, hbefore⟩ := eq_of_locate? (hr.locate?_breed hsplit hanswers)
  refine List.find?_eq_some_iff_append.2 ⟨hanswers, before, after, hsplit, fun c hc => ?_⟩
  rw [hbefore c hc]
  rfl

theorem Coherent.findVariable?_eq_some (hr : r.Coherent) {v : Variable} (hv : v ∈ r.vars)
    {name : String} (hsame : fold v.name = fold name) : r.findVariable? name = some v := by
  obtain ⟨before, after, hsplit⟩ := List.append_of_mem hv
  obtain ⟨-, hp, hbefore⟩ := eq_of_locate? (hr.locate?_variable hsplit hsame)
  refine List.find?_eq_some_iff_append.2 ⟨hp, before, after, hsplit, fun w hw => ?_⟩
  rw [hbefore w hw]
  rfl

/-- An owner is resolved to the one declared breed that has the plural, in any case. -/
theorem Coherent.resolveScope_spelled (hr : r.Coherent) {b : Breed} (hb : b ∈ r.customBreeds)
    {owner : String} (hsame : fold b.plural = fold owner) :
    r.resolveScope (.breed owner) = .ok (.breed b.plural) := by
  have hexists : (r.breeds.find? fun c => !c.builtin && sameName c.plural owner).isSome := by
    refine List.find?_isSome.2 ⟨b, (List.mem_filter.1 hb).1, ?_⟩
    rw [(hr.breeds b hb).custom, sameName_iff.2 hsame]
    rfl
  obtain ⟨c, hfound⟩ := Option.isSome_iff_exists.1 hexists
  have hc := List.find?_some hfound
  rw [Bool.and_eq_true] at hc
  have hmem : c ∈ r.customBreeds := List.mem_filter.2 ⟨List.mem_of_find?_eq_some hfound, hc.1⟩
  have hcb := hr.eq_of_plural hmem hb ((sameName_iff.1 hc.2).trans hsame.symm)
  simp only [resolveScope, hfound, hcb]

/-- A declared breed stands between the same others, whichever of its names leads to it. -/
theorem Coherent.locateBreed_congr (hr : r.Coherent) {b : Breed} (hb : b ∈ r.breeds)
    (hdeclared : b.builtin = false) {m n : String} (hm : b.answersTo m = true)
    (hn : b.answersTo n = true) : r.locateBreed m = r.locateBreed n := by
  obtain ⟨before, after, hsplit⟩ := List.append_of_mem hb
  rw [hr.locateBreed_of_split hsplit hdeclared hm, hr.locateBreed_of_split hsplit hdeclared hn]

theorem Coherent.locateBreed_builtin (hr : r.Coherent) {b : Breed} (hb : b ∈ r.breeds)
    (hbuiltin : b.builtin = true) {name : String} (hanswers : b.answersTo name = true) :
    r.locateBreed name = .error (.protectedEntry name) := by
  obtain ⟨before, after, hsplit⟩ := List.append_of_mem hb
  simp only [locateBreed, hr.locate?_breed hsplit hanswers, hbuiltin, if_true]

theorem Coherent.locateVariable_congr (hr : r.Coherent) {v : Variable} (hv : v ∈ r.vars)
    {m n : String} (hm : fold v.name = fold m) (hn : fold v.name = fold n) :
    r.locateVariable m = r.locateVariable n := by
  obtain ⟨before, after, hsplit⟩ := List.append_of_mem hv
  rw [hr.locateVariable_of_split hsplit hm, hr.locateVariable_of_split hsplit hn]

theorem removeBreed_of_error {name : String} {e : RegistryError}
    (h : r.locateBreed name = .error e) : r.removeBreed name = .error e := by
  rw [Registries.removeBreed, h]
  rfl

theorem renameBreed_of_error {name : String} {e : RegistryError}
    (h : r.locateBreed name = .error e) (plural singular : String) :
    r.renameBreed name plural singular = .error e := by
  rw [Registries.renameBreed, h]
  rfl

theorem Coherent.addressesBreed (hr : r.Coherent) {b : Breed} (hb : b ∈ r.breeds) {m n : String}
    (hm : b.answersTo m = true) (hn : b.answersTo n = true) : r.AddressesBreed b m n where
  finds := ⟨hr.findBreed?_eq_some hb hm, hr.findBreed?_eq_some hb hn⟩
  declared hdeclared := by
    have hlocate := hr.locateBreed_congr hb hdeclared hm hn
    refine ⟨?_, fun plural singular => ?_⟩
    · rw [Registries.removeBreed, Registries.removeBreed, hlocate]
    · rw [Registries.renameBreed, Registries.renameBreed, hlocate]
  builtin hbuiltin name hname plural singular edit hedit := by
    have hanswers : b.answersTo name = true := by
      rcases List.mem_pair.1 hname with rfl | rfl
      · exact hm
      · exact hn
    have hlocate := hr.locateBreed_builtin hb hbuiltin hanswers
    have hrefused : edit.change r = .error (.protectedEntry name) := by
      rcases List.mem_pair.1 hedit with rfl | rfl
      · exact removeBreed_of_error hlocate
      · exact renameBreed_of_error hlocate plural singular
    exact ⟨hrefused, RegistryEdit.refused hrefused⟩

theorem Coherent.addressesVariable (hr : r.Coherent) {v : Variable} (hv : v ∈ r.vars)
    {m n : String} (hm : fold v.name = fold m) (hn : fold v.name = fold n) :
    r.AddressesVariable v m n where
  finds := ⟨hr.findVariable?_eq_some hv hm, hr.findVariable?_eq_some hv hn⟩
  remove := by
    rw [Registries.removeVariable, Registries.removeVariable, hr.locateVariable_congr hv hm hn]
  rename new := by
    rw [Registries.renameVariable, Registries.renameVariable, hr.locateVariable_congr hv hm hn]

end Registries

namespace RegistryEdit

/-- After any edits of a model without declarations, the plural and the singular of a breed, built
in or declared, and the name of a variable lead to it in every case, and edits that differ only in
the name they use for it are the same edit. -/
theorem addresses_run (edits : List RegistryEdit) :
    (∀ b ∈ (run .empty edits).breeds, ∀ m n, fold m ∈ [fold b.plural, fold b.singular] →
      fold n ∈ [fold b.plural, fold b.singular] → (run .empty edits).AddressesBreed b m n) ∧
    ∀ v ∈ (run .empty edits).vars, ∀ m n, fold m = fold v.name → fold n = fold v.name →
      (run .empty edits).AddressesVariable v m n := by
  have hr := coherent_run Registries.coherent_empty edits
  refine ⟨fun b hb m n hm hn => ?_, fun v hv m n hm hn => ?_⟩
  · exact hr.addressesBreed hb (answersTo_iff_mem.2 hm) (answersTo_iff_mem.2 hn)
  · exact hr.addressesVariable hv hm.symm hn.symm

theorem addresses_hungerEdits :
    (run .empty hungerEdits).removeBreed "WOLVES" = (run .empty hungerEdits).removeBreed "Wolf" ∧
      (run .empty hungerEdits).removeBreed "Patch" = .error (.protectedEntry "Patch") ∧
      (run .empty hungerEdits).findVariable? "HUNGER" = some ⟨"hunger", .breed "wolves"⟩ := by
  have hplural : fold "WOLVES" = "wolves" ∧ fold "wolves" = "wolves" := by decide +kernel
  have hsingular : fold "Wolf" = "wolf" ∧ fold "wolf" = "wolf" := by decide +kernel
  have hpatch : fold "Patch" = "patch" ∧ fold "patch" = "patch" := by decide +kernel
  have hhunger : fold "HUNGER" = "hunger" ∧ fold "hunger" = "hunger" := by decide +kernel
  obtain ⟨hbreeds, hvars⟩ := addresses_run hungerEdits
  rw [run_hungerEdits] at hbreeds hvars ⊢
  have hwolves := hbreeds ⟨"wolves", "wolf", .turtle, false⟩ (by decide) "WOLVES" "Wolf"
    (by simp [hplural]) (by simp [hsingular])
  have hpatches := hbreeds ⟨"patches", "patch", .patch, true⟩ (by decide) "Patch" "Patch"
    (by simp [hpatch]) (by simp [hpatch])
  have hvar := hvars ⟨"hunger", .breed "wolves"⟩ (by decide) "HUNGER" "hunger"
    (hhunger.1.trans hhunger.2.symm) rfl
  refine ⟨(hwolves.declared rfl).1, ?_, hvar.finds.1⟩
  exact (hpatches.builtin rfl "Patch" (by simp) "dogs" "dog" (.removeBreed "Patch") (by simp)).1

end RegistryEdit

end AgentBlocks
