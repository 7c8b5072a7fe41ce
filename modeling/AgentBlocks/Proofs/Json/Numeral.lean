import AgentBlocks.Json.Numeral
import Mathlib.Data.List.DropRight

/-!
Numerals are read back from their text. Those of integers and of all numbers have the form that a
text asks for: in front of the point a zero stands only alone, and an exponent has digits.
-/
namespace AgentBlocks

theorem isDigit_of_mem_digitsOf {n : Nat} {c : Char} (h : c ∈ digitsOf n) : isDigit c = true :=
  Nat.isDigit_of_mem_toDigits (by decide) (by decide) h

theorem digitsOf_ne_nil (n : Nat) : digitsOf n ≠ [] := Nat.toDigits_ne_nil

theorem digitsValue_digitsOf (n : Nat) : digitsValue (digitsOf n) = n :=
  Nat.ofDigitChars_ten_toDigits

/-- The first digit of a positive number is not zero. -/
theorem digitsOf_eq_cons {n : Nat} (hn : n ≠ 0) : ∃ c cs, digitsOf n = c :: cs ∧ c ≠ '0' := by
  induction n using Nat.strongRecOn with
  | _ n ih =>
    rw [digitsOf, Nat.toDigits_eq_if (by decide)]
    split
    · rename_i hlt
      have hfirst : ∀ m < 10, m ≠ 0 → m.digitChar ≠ '0' := by decide
      exact ⟨_, [], rfl, hfirst n hlt hn⟩
    · obtain ⟨c, cs, hcs, hc⟩ := ih (n / 10) (by omega) (by omega)
      rw [digitsOf] at hcs
      exact ⟨c, cs ++ [(n % 10).digitChar], by rw [hcs, List.cons_append], hc⟩

namespace Numeral

/-- The form of a numeral in a text. -/
structure WellFormed (n : Numeral) : Prop where
  whole : isWhole n.whole = true
  wholeDigits : ∀ c ∈ n.whole, isDigit c = true
  fraction : ∀ c ∈ n.fraction, isDigit c = true
  exponent : ∀ negative digits, n.exponent = some (negative, digits) →
    digits ≠ [] ∧ ∀ c ∈ digits, isDigit c = true

/-- What stands behind digits does not go on with one. -/
def Stops : List Char → Prop
  | [] => True
  | c :: _ => isDigit c = false

theorem takeWhile_digits {digits tail : List Char} (h : ∀ c ∈ digits, isDigit c = true)
    (htail : Stops tail) : (digits ++ tail).takeWhile isDigit = digits := by
  rw [List.takeWhile_append_of_pos h]
  cases tail with
  | nil => simp
  | cons c rest => simp [show isDigit c = false from htail]

theorem dropWhile_digits {digits tail : List Char} (h : ∀ c ∈ digits, isDigit c = true)
    (htail : Stops tail) : (digits ++ tail).dropWhile isDigit = tail := by
  rw [List.dropWhile_append_of_pos h]
  cases tail with
  | nil => simp
  | cons c rest => simp [show isDigit c = false from htail]

/-- The text of an exponent. -/
def exponentText : Option (Bool × List Char) → List Char
  | none => []
  | some (negative, digits) => 'e' :: (if negative then '-' else '+') :: digits

theorem stops_exponentText (e : Option (Bool × List Char)) : Stops (exponentText e) := by
  cases e with
  | none => trivial
  | some e => exact (by decide : isDigit 'e' = false)

theorem exponent?_exponentText {e : Option (Bool × List Char)}
    (h : ∀ negative digits, e = some (negative, digits) →
      digits ≠ [] ∧ ∀ c ∈ digits, isDigit c = true) :
    exponent? (exponentText e) = some e := by
  cases e with
  | none => rfl
  | some e =>
      obtain ⟨negative, digits⟩ := e
      obtain ⟨hne, hdigits⟩ := h negative digits rfl
      have hall : digits.all isDigit = true := List.all_eq_true.2 hdigits
      cases negative <;> simp [exponentText, exponent?, hne, hall]

/-- What stands behind the digits before the point. -/
def tailText (fraction : List Char) (e : Option (Bool × List Char)) : List Char :=
  (if fraction.isEmpty then [] else '.' :: fraction) ++ exponentText e

theorem stops_tailText (fraction : List Char) (e : Option (Bool × List Char)) :
    Stops (tailText fraction e) := by
  cases fraction with
  | nil => exact stops_exponentText e
  | cons c rest => exact (by decide : isDigit '.' = false)

theorem text_eq (n : Numeral) :
    n.text = (if n.negative then ['-'] else []) ++ (n.whole ++ tailText n.fraction n.exponent) := by
  obtain ⟨negative, whole, fraction, e⟩ := n
  cases e <;> simp [text, tailText, exponentText]

theorem isWhole_ne_nil {whole : List Char} (h : isWhole whole = true) : whole ≠ [] := by
  rintro rfl
  cases h

/-- A sign and digits with what stands behind them. -/
def complete? (negative : Bool) (whole : List Char) : List Char → Option Numeral
  | '.' :: rest =>
    let fraction := rest.takeWhile isDigit
    if fraction.isEmpty then none
    else (exponent? (rest.dropWhile isDigit)).map fun e => ⟨negative, whole, fraction, e⟩
  | rest => (exponent? rest).map fun e => ⟨negative, whole, [], e⟩

/-- The sign and the digits before the point are read off, and what stands behind them decides. -/
theorem ofChars?_append (negative : Bool) {whole tail : List Char} (hwhole : isWhole whole = true)
    (hdigits : ∀ c ∈ whole, isDigit c = true) (htail : Stops tail) :
    ofChars? ((if negative then ['-'] else []) ++ (whole ++ tail)) =
      complete? negative whole tail := by
  have htake := takeWhile_digits hdigits htail
  have hdrop := dropWhile_digits hdigits htail
  cases negative with
  | true =>
      change ofChars? ('-' :: (whole ++ tail)) = _
      rw [ofChars?.eq_1, htake, hdrop, hwhole]
      rfl
  | false =>
      have hsign : ∀ rest, whole ++ tail = '-' :: rest → False := by
        intro rest h
        obtain ⟨c, cs, rfl⟩ := List.exists_cons_of_ne_nil (isWhole_ne_nil hwhole)
        cases h
        exact absurd (hdigits '-' List.mem_cons_self) (by decide)
      change ofChars? (whole ++ tail) = _
      rw [ofChars?.eq_2 _ hsign, htake, hdrop, hwhole]
      rfl

/-- A numeral is read back from its text. -/
theorem ofChars?_text {n : Numeral} (h : n.WellFormed) : ofChars? n.text = some n := by
  obtain ⟨negative, whole, fraction, e⟩ := n
  have he : exponent? (exponentText e) = some e := exponent?_exponentText h.exponent
  rw [text_eq, ofChars?_append negative h.whole h.wholeDigits (stops_tailText fraction e)]
  cases fraction with
  | nil =>
      cases e with
      | none => rfl
      | some e =>
          change (exponent? (exponentText (some e))).map _ = _
          rw [he, Option.map_some]
  | cons c rest =>
      have htake := takeWhile_digits h.fraction (stops_exponentText e)
      have hdrop := dropWhile_digits h.fraction (stops_exponentText e)
      have htail : tailText (c :: rest) e = '.' :: (c :: rest ++ exponentText e) := rfl
      simp only [htail, complete?, htake, hdrop, he, Option.map_some]
      rfl

theorem isWhole_cons {c : Char} (cs : List Char) (hc : c ≠ '0') : isWhole (c :: cs) = true := by
  unfold isWhole
  split <;> simp_all

theorem isWhole_digitsOf (n : Nat) : isWhole (digitsOf n) = true := by
  by_cases hn : n = 0
  · subst hn
    decide
  · obtain ⟨c, cs, hcs, hc⟩ := digitsOf_eq_cons hn
    rw [hcs, isWhole_cons cs hc]

theorem wellFormed_ofInt (n : Int) : (ofInt n).WellFormed :=
  ⟨isWhole_digitsOf _, fun _ => isDigit_of_mem_digitsOf, nofun, nofun⟩

/-- The integer of a numeral comes back, also a negative one. -/
theorem integer?_ofInt (n : Int) : (ofInt n).integer? = some n := by
  simp only [ofInt, integer?, digitsValue_digitsOf, List.isEmpty_nil, Bool.not_true,
    Option.isSome_none, Bool.or_self, Bool.false_eq_true, if_false, decide_eq_true_eq]
  split
  · rw [if_neg (by omega)]
    exact congrArg some (by omega)
  · exact congrArg some (by omega)

end Numeral

namespace Binary64

variable {v : Binary64} {d : Decimal}

theorem twoPow_pos (n : Nat) : 0 < twoPow n := Nat.two_pow_pos n

theorem tenPow_pos (n : Nat) : 0 < tenPow n := Nat.pow_pos (by decide)

theorem significand_pos (hv : v.isZero = false) : 0 < v.significand := by
  have hrank : v.rank ≠ 0 := by simpa [isZero] using hv
  have hunit := twoPow_pos 52
  unfold significand
  split <;> omega

theorem lowerQuarters_pos (hv : v.isZero = false) : 0 < v.lowerQuarters := by
  have hpos := significand_pos hv
  unfold lowerQuarters
  split <;> omega

/-- A decimal that reads back as a number other than zero is not zero. -/
theorem coefficient_ne_zero (hv : v.isZero = false) (h : v.readsBack d = true) :
    d.coefficient ≠ 0 := by
  intro hzero
  have hlow : d.compareRatio (v.lowerQuarters * v.quarter.1) v.quarter.2 = .lt := by
    have hpos : 0 < v.lowerQuarters * v.quarter.1 * d.ratio.2 := by
      refine Nat.mul_pos (Nat.mul_pos (lowerQuarters_pos hv) ?_) (tenPow_pos _)
      exact Nat.mul_pos Nat.one_pos (twoPow_pos _)
    simp only [Decimal.compareRatio, Decimal.ratio, hzero, Nat.zero_mul] at hpos ⊢
    exact Nat.compare_eq_lt.2 hpos
  simp only [readsBack, hlow] at h
  split at h <;> simp at h

theorem readsBack_of_decimalWith? {tie : Decimal.Tie} {digits : Nat}
    (h : v.decimalWith? tie digits = some d) : v.readsBack d = true := by
  unfold decimalWith? at h
  simp only at h
  split at h
  · cases h
  · rename_i hbelow _
    cases h
    exact hbelow
  · rename_i _ habove
    cases h
    exact habove
  · rename_i hbelow habove
    split at h
    · cases h
      exact hbelow
    · cases h
      exact habove
    · split at h
      · cases h
        exact hbelow
      · cases h
        exact habove

/-- The shortest decimal of a number other than zero is not zero, unless none reads back. -/
theorem shortest_eq (hv : v.isZero = false) (tie : Decimal.Tie) :
    (v.shortest tie).coefficient ≠ 0 ∨ v.shortest tie = ⟨0, 0⟩ := by
  unfold shortest
  cases hfind : (List.range 17).findSome? fun n => v.decimalWith? tie (n + 1) with
  | none => exact .inr rfl
  | some d =>
      obtain ⟨n, -, hn⟩ := List.exists_of_findSome?_eq_some hfind
      exact .inl (coefficient_ne_zero hv (readsBack_of_decimalWith? hn))

end Binary64

namespace Numeral

theorem stripZeros_startsWith (digits : List Char) : stripZeros digits <+: digits :=
  List.rdropWhile_prefix _ _

theorem stripZeros_eq_cons {c : Char} (cs : List Char) (hc : c ≠ '0') :
    ∃ rest, stripZeros (c :: cs) = c :: rest := by
  have hstart := stripZeros_startsWith (c :: cs)
  have hne : stripZeros (c :: cs) ≠ [] := by
    intro hnil
    have hzero := List.rdropWhile_eq_nil_iff.1 hnil c List.mem_cons_self
    exact hc (by simpa using hzero)
  cases hstrip : stripZeros (c :: cs) with
  | nil => exact absurd hstrip hne
  | cons c' rest =>
      rw [hstrip, List.cons_prefix_cons] at hstart
      exact ⟨rest, by rw [hstart.1]⟩

theorem mem_of_mem_stripZeros {digits : List Char} {c : Char} (h : c ∈ stripZeros digits) :
    c ∈ digits :=
  (stripZeros_startsWith digits).subset h

/-- Digits with a point have the form of a numeral when the first digit is not zero; without
digits, when the point stands behind one place. -/
theorem wellFormed_pointed {digits : List Char} {point : Int}
    (hdigits : ∀ c ∈ digits, isDigit c = true)
    (hfirst : (∃ c cs, digits = c :: cs ∧ c ≠ '0') ∨ digits = [] ∧ point = 1) (negative : Bool) :
    WellFormed ⟨negative, (pointed digits point).1,
      if (pointed digits point).2.isEmpty then ['0'] else (pointed digits point).2, none⟩ := by
  have hzeros : ∀ n, ∀ c ∈ List.replicate n '0', isDigit c = true := by
    intro n c hc
    rw [List.eq_of_mem_replicate hc]
    decide
  have hfraction : ∀ fraction : List Char, (∀ c ∈ fraction, isDigit c = true) →
      ∀ c ∈ (if fraction.isEmpty then ['0'] else fraction), isDigit c = true := by
    intro fraction h
    split
    · exact hzeros 1
    · exact h
  unfold pointed
  split
  · exact ⟨rfl, hzeros 1, hfraction _ (List.forall_mem_append.2 ⟨hzeros _, hdigits⟩), nofun⟩
  · rename_i hpoint
    refine ⟨?_,
      List.forall_mem_append.2 ⟨fun c hc => hdigits c (List.mem_of_mem_take hc), hzeros _⟩,
      hfraction _ fun c hc => hdigits c (List.mem_of_mem_drop hc), nofun⟩
    rcases hfirst with ⟨c, cs, rfl, hc⟩ | ⟨rfl, rfl⟩
    · obtain ⟨n, hn⟩ : ∃ n, point.toNat = n + 1 := ⟨point.toNat - 1, by omega⟩
      simp only [hn, List.take_succ_cons, List.cons_append]
      exact isWhole_cons _ hc
    · rfl

theorem isDigit_of_mem_positional {d : Decimal} {c : Char} (h : c ∈ d.positional.1) :
    isDigit c = true :=
  isDigit_of_mem_digitsOf (mem_of_mem_stripZeros h)

theorem positional_shortest {v : Binary64} (hv : v.isZero = false) (tie : Decimal.Tie) :
    (∃ c cs, (v.shortest tie).positional.1 = c :: cs ∧ c ≠ '0') ∨
      (v.shortest tie).positional.1 = [] ∧ (v.shortest tie).positional.2 = 1 := by
  rcases Binary64.shortest_eq hv tie with hne | hdefault
  · obtain ⟨c, cs, hcs, hc⟩ := digitsOf_eq_cons hne
    obtain ⟨rest, hrest⟩ := stripZeros_eq_cons cs hc
    exact .inl ⟨c, rest, by rw [Decimal.positional, hcs, hrest], hc⟩
  · rw [hdefault]
    exact .inr (by decide)

/-- The numeral of every number has the form of one. -/
theorem wellFormed_ofBinary64 (v : Binary64) : (ofBinary64 v).WellFormed := by
  unfold ofBinary64
  split
  · have hzero : ∀ c ∈ ['0'], isDigit c = true := List.forall_mem_singleton.2 rfl
    exact ⟨rfl, hzero, hzero, nofun⟩
  · rename_i hv
    have hfirst := positional_shortest (Bool.eq_false_iff.2 hv) .toEven
    have hdigits : ∀ c ∈ (v.shortest .toEven).positional.1, isDigit c = true :=
      fun _ => isDigit_of_mem_positional
    generalize (v.shortest .toEven).positional = written at hfirst hdigits
    obtain ⟨digits, point⟩ := written
    simp only
    split
    · exact wellFormed_pointed hdigits hfirst v.negative
    · rename_i hpoint
      rcases hfirst with ⟨c, cs, rfl, hc⟩ | ⟨-, rfl⟩
      · refine ⟨isWhole_cons [] hc, fun c' hc' => hdigits c' (List.mem_of_mem_take hc'),
          fun c' hc' => hdigits c' (List.mem_of_mem_drop hc'), ?_⟩
        rintro _ _ ⟨⟩
        exact ⟨digitsOf_ne_nil _, fun _ => isDigit_of_mem_digitsOf⟩
      · exact absurd (by decide) hpoint

end Numeral

end AgentBlocks
