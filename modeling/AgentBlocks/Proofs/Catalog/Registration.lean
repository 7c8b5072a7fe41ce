import AgentBlocks.Catalog.Basic
import Mathlib.Data.List.Forall2

/-!
Catalogs that are filled call by call. A catalog keeps the types under their names and the names in
a list of their own, and the listing passes over a name under which nothing is found. Whatever is
registered, and however often under the same name, the two stay in step: each name is listed once,
where it was registered first, and stands for the type of that first call.
-/
namespace AgentBlocks

/-- The names that have occurred so far, each once and in the order in which they occurred first. -/
structure Enumerates (order names : List String) : Prop where
  mem_iff : ∀ name, name ∈ order ↔ name ∈ names
  ordered : order.Pairwise fun a b => names.idxOf a < names.idxOf b

namespace Enumerates

variable {order names : List String} {name : String}

theorem empty : Enumerates [] [] := ⟨fun _ => Iff.rfl, .nil⟩

theorem nodup (h : Enumerates order names) : order.Nodup := by
  refine h.ordered.imp fun hlt heq => ?_
  rw [heq] at hlt
  exact Nat.lt_irrefl _ hlt

/-- A name keeps its first place whatever occurs later. -/
theorem ordered_append (h : Enumerates order names) (later : List String) :
    order.Pairwise fun a b => (names ++ later).idxOf a < (names ++ later).idxOf b := by
  refine h.ordered.imp_of_mem fun ha hb hlt => ?_
  rwa [List.idxOf_append_of_mem ((h.mem_iff _).1 ha), List.idxOf_append_of_mem ((h.mem_iff _).1 hb)]

theorem again (h : Enumerates order names) (hname : name ∈ names) :
    Enumerates order (names ++ [name]) where
  mem_iff other := by
    rw [h.mem_iff, List.mem_append, List.mem_singleton]
    exact ⟨.inl, fun hmem => hmem.elim id fun heq => heq ▸ hname⟩
  ordered := h.ordered_append [name]

theorem add (h : Enumerates order names) (hname : name ∉ names) :
    Enumerates (order ++ [name]) (names ++ [name]) where
  mem_iff other := by rw [List.mem_append, List.mem_append, h.mem_iff]
  ordered := by
    refine List.pairwise_append.2 ⟨h.ordered_append [name], List.pairwise_singleton _ _, ?_⟩
    intro a ha b hb
    have hmem := (h.mem_iff a).1 ha
    rw [List.mem_singleton.1 hb, List.idxOf_append_of_mem hmem, List.idxOf_append_of_notMem hname]
    exact Nat.lt_add_right _ (List.idxOf_lt_length_iff.2 hmem)

end Enumerates

/-- What the blocks of a type are, in words: statements, or values, where the values of a type are
told apart if it says so. -/
inductive BlockType.Described (t : BlockType) : String → Prop
  | statement : t.kind = .statement → t.Described "statement"
  | value : t.kind = .value → t.output = none → t.Described "value"
  | valueOf {output word} : t.kind = .value → t.output = some output →
      (output, word) ∈ [(OutputType.number, "Number"), (.boolean, "Boolean"), (.string, "String"),
        (.agent, "Agent"), (.agentset, "Agentset"), (.color, "Color"), (.any, "Any")] →
      t.Described ("value " ++ word)

/-- The entry of a type in a listing: a line with its name, filled up with blanks to 28 characters,
and after a further blank what its blocks are. -/
def BlockType.Entry (t : BlockType) (entry : String) : Prop :=
  ∃ fill shape, (∀ c ∈ fill.toList, c = ' ') ∧
    t.name.length + fill.length = max 28 t.name.length ∧ t.Described shape ∧
    entry = t.name ++ fill ++ " " ++ shape ++ "\n"

/-- The options of a field offer these choices. -/
inductive FieldOptions.Offers (r : Registries) : FieldOptions → List String → Prop
  | fixed (choices : List String) : Offers r (.fixed choices) choices
  | live (choices : Registries → List String) : Offers r (.live choices) (choices r)

theorem BlockType.described_shape (t : BlockType) : t.Described t.shape := by
  unfold shape
  cases hkind : t.kind with
  | statement => exact .statement hkind
  | value =>
      cases houtput : t.output with
      | none => exact .value hkind houtput
      | some output => exact .valueOf hkind houtput (by cases output <;> decide)

theorem BlockType.entry_entryLine (t : BlockType) : t.Entry (Catalog.entryLine t.name t) := by
  refine ⟨String.ofList (List.replicate (28 - t.name.length) ' '), t.shape, ?_, ?_,
    t.described_shape, rfl⟩
  · rw [String.toList_ofList]
    exact fun c => List.eq_of_mem_replicate
  · rw [String.length_ofList, List.length_replicate]
    omega

theorem FieldOptions.choices?_eq_some_iff {options : FieldOptions} {r : Registries}
    {choices : List String} : options.choices? r = some choices ↔ options.Offers r choices := by
  constructor
  · intro h
    cases options with
    | free => cases h
    | fixed fixed =>
        cases h
        exact .fixed choices
    | live live =>
        cases h
        exact .live live
  · rintro (_ | _) <;> rfl

namespace Catalog

/-- The catalog holds what calls for the given types have registered: under each name the first type
that bears it, and the names in the order of their first calls. -/
structure Records (c : Catalog) (ts : List BlockType) : Prop where
  found : ∀ name, c.type? name = ts.find? (·.name == name)
  enumerates : Enumerates c.order (ts.map (·.name))

theorem contains_eq_isSome (c : Catalog) (name : String) :
    c.contains name = (c.type? name).isSome := c.types.contains_eq_isSome_get? name

theorem register_of_contains {c : Catalog} {t : BlockType} (h : c.contains t.name = true) :
    c.register t = .error (.duplicateBlockType t.name) := if_pos h

theorem register_of_free {c : Catalog} {t : BlockType} (h : c.contains t.name = false) :
    c.register t = .ok ⟨c.types.insert t.name t, c.order ++ [t.name]⟩ :=
  if_neg (Bool.eq_false_iff.1 h)

theorem registerAll_append (c : Catalog) (ts us : List BlockType) :
    c.registerAll (ts ++ us) = (c.registerAll ts).registerAll us := List.foldl_append

theorem registerAll_singleton (c : Catalog) (t : BlockType) :
    c.registerAll [t] = match c.register t with
      | .ok c' => c'
      | .error _ => c := rfl

theorem registerAll_of_contains {c : Catalog} {t : BlockType} (h : c.contains t.name = true) :
    c.registerAll [t] = c := by
  rw [registerAll_singleton, register_of_contains h]

namespace Records

variable {c : Catalog} {ts : List BlockType} {t : BlockType} {name : String}

theorem empty : Catalog.empty.Records [] := ⟨fun _ => rfl, .empty⟩

theorem contains_iff (h : c.Records ts) : c.contains name = true ↔ name ∈ ts.map (·.name) := by
  rw [contains_eq_isSome, h.found, List.find?_isSome, List.mem_map]
  simp only [beq_iff_eq]

/-- A call adds its name at the end of the list, or leaves the catalog alone when the name is
taken. -/
theorem call (h : c.Records ts) (t : BlockType) : (c.registerAll [t]).Records (ts ++ [t]) where
  found name := by
    rw [type?_registerAll, h.found, List.find?_append]
  enumerates := by
    rw [List.map_append, List.map_singleton]
    cases hcontains : c.contains t.name with
    | true =>
        rw [registerAll_of_contains hcontains]
        exact h.enumerates.again (h.contains_iff.1 hcontains)
    | false =>
        rw [registerAll_singleton, register_of_free hcontains]
        refine h.enumerates.add fun hmem => ?_
        rw [h.contains_iff.2 hmem] at hcontains
        cases hcontains

theorem calls (h : c.Records ts) (us : List BlockType) :
    (c.registerAll us).Records (ts ++ us) := by
  induction us generalizing c ts with
  | nil => rwa [List.append_nil]
  | cons t us ih =>
      rw [List.append_cons, ← List.singleton_append, registerAll_append]
      exact ih (h.call t)

theorem register_eq_error_iff (h : c.Records ts) {e : CatalogError} :
    c.register t = .error e ↔ t.name ∈ ts.map (·.name) ∧ e = .duplicateBlockType t.name := by
  rw [← h.contains_iff]
  cases hcontains : c.contains t.name with
  | true => simp [register_of_contains hcontains, eq_comm]
  | false => simp [register_of_free hcontains]

theorem name_of_found (h : c.Records ts) (hfound : c.type? name = some t) : t.name = name := by
  rw [h.found] at hfound
  exact beq_iff_eq.1 (List.find?_some hfound :)

/-- Under each listed name a type is found that bears it, so the listing passes over none. -/
theorem map_name_found (h : c.Records ts) :
    (c.order.filterMap c.type?).map (·.name) = c.order := by
  have hname : ∀ name ∈ c.order, (c.type? name).map (·.name) = some name := by
    intro name hmem
    have hcontains := h.contains_iff.2 ((h.enumerates.mem_iff name).1 hmem)
    rw [contains_eq_isSome] at hcontains
    obtain ⟨t, ht⟩ := Option.isSome_iff_exists.1 hcontains
    rw [ht, Option.map_some, h.name_of_found ht]
  rw [List.map_filterMap, List.filterMap_congr hname, List.filterMap_some]

theorem listing_eq (h : c.Records ts) :
    c.listing = String.join ((c.order.filterMap c.type?).map fun t => entryLine t.name t) := by
  have hentry : ∀ name ∈ c.order,
      (c.type? name).map (entryLine name) = (c.type? name).map fun t => entryLine t.name t := by
    intro name _
    cases hfound : c.type? name with
    | none => rfl
    | some t => rw [Option.map_some, Option.map_some, h.name_of_found hfound]
  rw [listing, List.map_filterMap, List.filterMap_congr hentry]

end Records

/-- The names, the types, the answers to calls and what is read off the catalog agree on the types
that were registered first. -/
structure InStep (c : Catalog) (ts : List BlockType) : Prop extends c.Records ts where
  once : c.order.Nodup
  refused : ∀ t e, c.register t = .error e ↔
    t.name ∈ ts.map (·.name) ∧ e = .duplicateBlockType t.name
  unchanged : ∀ t e, c.register t = .error e → empty.registerAll (ts ++ [t]) = c
  entries : ∃ firsts : List BlockType, firsts.map (·.name) = c.order ∧
    (∀ t ∈ firsts, ts.find? (·.name == t.name) = some t) ∧
    ∃ lines, List.Forall₂ BlockType.Entry firsts lines ∧ c.listing = String.join lines
  offered : ∀ r name field choices, c.fieldOptions? r name field = some choices ↔
    ∃ t, ts.find? (·.name == name) = some t ∧
      ∃ f, t.fields.find? (·.name == field) = some f ∧ f.options.Offers r choices

/-- After any calls on an empty catalog each name that was ever registered is listed once, in the
order of the first calls, and stands for the type of its first call. A call for a name that is taken
is refused by that name and changes nothing. -/
theorem inStep_registerAll (ts : List BlockType) : (empty.registerAll ts).InStep ts := by
  have hrecords : (empty.registerAll ts).Records ts := Records.empty.calls ts
  refine { hrecords with
    once := hrecords.enumerates.nodup
    refused := fun t e => hrecords.register_eq_error_iff
    unchanged := ?_
    entries := ⟨_, hrecords.map_name_found, ?_, _, ?_, hrecords.listing_eq⟩
    offered := ?_ }
  · intro t e hrefused
    have htaken := hrecords.contains_iff.2 (hrecords.register_eq_error_iff.1 hrefused).1
    rw [registerAll_append, registerAll_of_contains htaken]
  · intro t ht
    obtain ⟨name, -, hfound⟩ := List.mem_filterMap.1 ht
    rw [← hrecords.found, hrecords.name_of_found hfound, hfound]
  · exact List.forall₂_map_right_iff.2 (List.forall₂_same.2 fun t _ => t.entry_entryLine)
  · intro r name field choices
    simp only [fieldOptions?, hrecords.found, Option.bind_eq_bind, Option.bind_eq_some_iff,
      FieldOptions.choices?_eq_some_iff]

end Catalog

end AgentBlocks
