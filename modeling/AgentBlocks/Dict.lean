import AgentBlocks.Text.Order

/-!
Dictionaries with texts as keys. The entries are kept in the order of their keys, each key once,
so two dictionaries with the same entries are equal. Main statements: what is found after an
insertion, and that a dictionary is determined by its entries.
-/
namespace AgentBlocks

open Text

def KeysIncrease {α : Type} (entries : List (String × α)) : Prop :=
  entries.Pairwise fun a b => before a.1 b.1 = true

/-- A dictionary: entries in the order of their keys. -/
structure Dict (α : Type) where
  entries : List (String × α)
  increase : KeysIncrease entries

namespace Dict

variable {α : Type}

@[ext] theorem ext {d e : Dict α} (h : d.entries = e.entries) : d = e := by
  cases d; cases e; cases h; rfl

instance [DecidableEq α] : DecidableEq (Dict α) := fun d e =>
  if h : d.entries = e.entries then isTrue (ext h) else isFalse fun he => h (he ▸ rfl)

def empty : Dict α := ⟨[], .nil⟩

instance : Inhabited (Dict α) := ⟨empty⟩

/-- Places an entry among ordered entries; an entry with the same key is replaced. -/
def place (key : String) (value : α) : List (String × α) → List (String × α)
  | [] => [(key, value)]
  | (k, v) :: rest =>
    if before key k then (key, value) :: (k, v) :: rest
    else if key = k then (key, value) :: rest
    else (k, v) :: place key value rest

theorem mem_place {key : String} {value : α} {entry : String × α} {es : List (String × α)}
    (h : entry ∈ place key value es) : entry = (key, value) ∨ entry ∈ es := by
  induction es with
  | nil => exact .inl (by simpa [place] using h)
  | cons e rest ih =>
    obtain ⟨k, v⟩ := e
    rw [place] at h
    split at h
    · simpa using h
    · split at h
      · rcases List.mem_cons.1 h with h | h
        · exact .inl h
        · exact .inr (List.mem_cons_of_mem _ h)
      · rcases List.mem_cons.1 h with h | h
        · exact .inr (by simp [h])
        · exact (ih h).imp id (List.mem_cons_of_mem _)

theorem increase_place (key : String) (value : α) {es : List (String × α)}
    (h : KeysIncrease es) : KeysIncrease (place key value es) := by
  induction es with
  | nil => exact List.pairwise_singleton _ _
  | cons e rest ih =>
    obtain ⟨k, v⟩ := e
    have hhead : ∀ a ∈ rest, before k a.1 = true := fun a ha => List.rel_of_pairwise_cons h ha
    rw [place]
    split
    · rename_i hlt
      refine List.Pairwise.cons (fun a ha => ?_) h
      rcases List.mem_cons.1 ha with rfl | ha
      · exact hlt
      · exact before_trans hlt (hhead _ ha)
    · split
      · rename_i heq
        subst heq
        exact List.Pairwise.cons (fun a ha => hhead _ ha) (List.Pairwise.of_cons h)
      · rename_i hlt hne
        have hkk : before k key = true := by
          rcases before_trichotomy key k with h₁ | h₁ | h₁
          · exact absurd h₁ hlt
          · exact absurd h₁ hne
          · exact h₁
        refine List.Pairwise.cons (fun a ha => ?_) (ih (List.Pairwise.of_cons h))
        rcases mem_place ha with rfl | ha
        · exact hkk
        · exact hhead _ ha

/-- The dictionary with one more entry, which replaces any entry with the same key. -/
def insert (d : Dict α) (key : String) (value : α) : Dict α :=
  ⟨place key value d.entries, increase_place key value d.increase⟩

/-- The entries placed one after the other: of a repeated key the last value stays. -/
def ofList (es : List (String × α)) : Dict α :=
  es.foldl (fun d e => d.insert e.1 e.2) empty

def get? (d : Dict α) (key : String) : Option α :=
  (d.entries.find? fun e => e.1 == key).map (·.2)

def contains (d : Dict α) (key : String) : Bool := d.entries.any fun e => e.1 == key

theorem find?_place (key : String) (value : α) (es : List (String × α)) (k : String) :
    (place key value es).find? (fun e => e.1 == k) =
      if key = k then some (key, value) else es.find? fun e => e.1 == k := by
  induction es with
  | nil => by_cases h : key = k <;> simp [place, h]
  | cons e rest ih =>
    obtain ⟨k', v⟩ := e
    rw [place]
    by_cases h : key = k
    · subst h
      split
      · simp
      · split
        · simp
        · rename_i hne
          simp [ih, Ne.symm hne]
    · split
      · simp [h]
      · split
        · rename_i heq
          subst heq
          simp [h]
        · by_cases h' : k' = k <;> simp [h', ih, h]

@[simp] theorem get?_empty (k : String) : (empty : Dict α).get? k = none := rfl

/-- After an insertion the new value is found under its key, and under every other key what was
found before. -/
theorem get?_insert (d : Dict α) (key : String) (value : α) (k : String) :
    (d.insert key value).get? k = if key = k then some value else d.get? k := by
  simp only [get?, insert, find?_place]
  split <;> simp

theorem contains_eq_isSome_get? (d : Dict α) (k : String) : d.contains k = (d.get? k).isSome := by
  rw [contains, get?, Option.isSome_map, Bool.eq_iff_iff]
  simp

def keys (d : Dict α) : List String := d.entries.map (·.1)

def size (d : Dict α) : Nat := d.entries.length

def isEmpty (d : Dict α) : Bool := d.entries.isEmpty

end Dict

end AgentBlocks
