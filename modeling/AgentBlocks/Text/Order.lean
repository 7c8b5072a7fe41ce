/-!
The order of texts by code point. It is a strict total order: no text comes before itself, the
order is transitive, and of two different texts one comes before the other.
-/
namespace AgentBlocks.Text

/-- The first text comes before the second: at the first difference its code point is smaller,
or it ends there. -/
def listBefore : List Char → List Char → Bool
  | _, [] => false
  | [], _ :: _ => true
  | a :: s, b :: t => Nat.blt a.toNat b.toNat || (a == b && listBefore s t)

def before (a b : String) : Bool := listBefore a.toList b.toList

theorem listBefore_cons (a b : Char) (s t : List Char) :
    listBefore (a :: s) (b :: t) = true ↔
      a.toNat < b.toNat ∨ (a = b ∧ listBefore s t = true) := by
  simp [listBefore, ← Nat.blt_eq]

theorem listBefore_irrefl (s : List Char) : listBefore s s = false := by
  induction s with
  | nil => rfl
  | cons a s ih =>
    refine Bool.eq_false_iff.2 fun h => ?_
    rcases (listBefore_cons a a s s).1 h with h | ⟨_, h⟩
    · exact Nat.lt_irrefl _ h
    · simp [ih] at h

theorem listBefore_trans {s t u : List Char} (hst : listBefore s t = true)
    (htu : listBefore t u = true) : listBefore s u = true := by
  induction s generalizing t u with
  | nil =>
    cases u with
    | nil => cases t <;> simp [listBefore] at htu
    | cons c u => rfl
  | cons a s ih =>
    cases t with
    | nil => simp [listBefore] at hst
    | cons b t =>
      cases u with
      | nil => simp [listBefore] at htu
      | cons c u =>
        rw [listBefore_cons] at hst htu ⊢
        rcases hst with h₁ | ⟨rfl, h₁⟩
        · rcases htu with h₂ | ⟨rfl, _⟩
          · exact .inl (Nat.lt_trans h₁ h₂)
          · exact .inl h₁
        · rcases htu with h₂ | ⟨rfl, h₂⟩
          · exact .inl h₂
          · exact .inr ⟨rfl, ih h₁ h₂⟩

theorem listBefore_trichotomy (s t : List Char) :
    listBefore s t = true ∨ s = t ∨ listBefore t s = true := by
  induction s generalizing t with
  | nil => cases t <;> simp [listBefore]
  | cons a s ih =>
    cases t with
    | nil => simp [listBefore]
    | cons b t =>
      rw [listBefore_cons, listBefore_cons]
      rcases Nat.lt_trichotomy a.toNat b.toNat with h | h | h
      · exact .inl (.inl h)
      · have hab : a = b := Char.ext (UInt32.toNat_inj.1 h)
        subst hab
        rcases ih t with h₁ | h₁ | h₁
        · exact .inl (.inr ⟨rfl, h₁⟩)
        · exact .inr (.inl (by rw [h₁]))
        · exact .inr (.inr (.inr ⟨rfl, h₁⟩))
      · exact .inr (.inr (.inl h))

theorem before_irrefl (a : String) : before a a = false := listBefore_irrefl a.toList

theorem before_trans {a b c : String} (hab : before a b = true) (hbc : before b c = true) :
    before a c = true := listBefore_trans hab hbc

theorem before_trichotomy (a b : String) : before a b = true ∨ a = b ∨ before b a = true := by
  rcases listBefore_trichotomy a.toList b.toList with h | h | h
  · exact .inl h
  · exact .inr (.inl (String.toList_inj.1 h))
  · exact .inr (.inr h)

theorem ne_of_before {a b : String} (h : before a b = true) : a ≠ b := by
  rintro rfl
  simp [before_irrefl] at h

end AgentBlocks.Text
