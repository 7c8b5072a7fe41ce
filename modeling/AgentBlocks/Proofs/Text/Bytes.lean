import AgentBlocks.Text.Order
import Mathlib.Order.Lattice

/-!
The order of texts by code point is the order of their bytes in UTF-8.
-/
namespace AgentBlocks.Text

/-- The bytes of a text in UTF-8. -/
def bytes (t : String) : List UInt8 := t.toUTF8.data.toList

theorem bytes_eq_flatMap (t : String) : bytes t = t.toList.flatMap String.utf8EncodeChar := by
  conv_lhs => rw [bytes, String.toUTF8, ← String.ofList_toList (s := t), String.toByteArray_ofList]
  rw [List.utf8Encode, List.data_toByteArray]

theorem append_lt_append_left (common : List UInt8) {s t : List UInt8} (h : s < t) :
    common ++ s < common ++ t := by
  induction common with
  | nil => exact h
  | cons _ _ ih => exact .cons ih

theorem ofNat_cons_lt {a b : Nat} {s t : List UInt8} (hb : b < 256) (hle : a ≤ b)
    (h : a = b → s < t) : UInt8.ofNat a :: s < UInt8.ofNat b :: t := by
  rcases hle.lt_or_eq with hlt | rfl
  · refine .rel (UInt8.lt_iff_toNat_lt.2 ?_)
    rwa [UInt8.toNat_ofNat_of_lt' (hlt.trans hb), UInt8.toNat_ofNat_of_lt' hb]
  · exact .cons (h rfl)

/-- The bytes of a smaller code point come first, whatever follows. -/
theorem utf8EncodeChar_append_lt {c d : Char} (h : c.toNat < d.toNat) (s t : List UInt8) :
    String.utf8EncodeChar c ++ s < String.utf8EncodeChar d ++ t := by
  have hd : d.val.toNat < 1114112 := by
    have hvalid := d.valid
    simp only [UInt32.isValidChar, Nat.isValidChar] at hvalid
    omega
  unfold Char.toNat at h
  simp only [String.utf8EncodeChar]
  generalize c.val.toNat = m at h
  generalize d.val.toNat = n at h hd
  -- the last bytes of both, where the digits before them agree
  have hone : m / 64 = n / 64 →
      UInt8.ofNat (m % 64 + 128) :: s < UInt8.ofNat (n % 64 + 128) :: t := fun _ =>
    ofNat_cons_lt (by omega) (by omega) fun _ => by omega
  have htwo : m / 4096 = n / 4096 →
      UInt8.ofNat (m / 64 % 64 + 128) :: UInt8.ofNat (m % 64 + 128) :: s <
        UInt8.ofNat (n / 64 % 64 + 128) :: UInt8.ofNat (n % 64 + 128) :: t := fun _ =>
    ofNat_cons_lt (by omega) (by omega) fun _ => hone (by omega)
  have hthree : m / 262144 = n / 262144 →
      UInt8.ofNat (m / 4096 % 64 + 128) :: UInt8.ofNat (m / 64 % 64 + 128) ::
          UInt8.ofNat (m % 64 + 128) :: s <
        UInt8.ofNat (n / 4096 % 64 + 128) :: UInt8.ofNat (n / 64 % 64 + 128) ::
          UInt8.ofNat (n % 64 + 128) :: t := fun _ =>
    ofNat_cons_lt (by omega) (by omega) fun _ => htwo (by omega)
  split_ifs
  -- of characters of different widths the first byte decides
  all_goals first
    | omega
    | refine ofNat_cons_lt (by omega) (by omega) fun _ => ?_
  all_goals try omega
  · exact hone (by omega)
  · exact htwo (by omega)
  · exact hthree (by omega)

theorem flatMap_utf8EncodeChar_lt {s t : List Char} (h : listBefore s t = true) :
    s.flatMap String.utf8EncodeChar < t.flatMap String.utf8EncodeChar := by
  induction s generalizing t with
  | nil =>
      cases t with
      | nil => cases h
      | cons d t =>
          obtain ⟨byte, rest, hbytes⟩ :=
            List.exists_cons_of_ne_nil (String.utf8EncodeChar_ne_nil (c := d))
          rw [List.flatMap_nil, List.flatMap_cons, hbytes]
          exact .nil
  | cons c s ih =>
      cases t with
      | nil => cases h
      | cons d t =>
          rw [List.flatMap_cons, List.flatMap_cons]
          rcases (listBefore_cons c d s t).1 h with hlt | ⟨rfl, hrest⟩
          · exact utf8EncodeChar_append_lt hlt _ _
          · exact append_lt_append_left _ (ih hrest)

theorem before_iff_bytes {a b : String} : before a b = true ↔ bytes a < bytes b := by
  have hmono : ∀ {a b : String}, before a b = true → bytes a < bytes b := fun h => by
    rw [bytes_eq_flatMap, bytes_eq_flatMap]
    exact flatMap_utf8EncodeChar_lt h
  refine ⟨hmono, fun h => ?_⟩
  rcases before_trichotomy a b with hab | rfl | hba
  · exact hab
  · exact absurd h (List.lt_irrefl _)
  · exact absurd h (List.lt_asymm (hmono hba))

end AgentBlocks.Text
