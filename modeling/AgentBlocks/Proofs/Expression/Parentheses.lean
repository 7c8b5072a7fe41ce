import AgentBlocks.Proofs.Expression.RoundTrip
import AgentBlocks.Proofs.Text.Skeleton

/-!
No parentheses are redundant. Of all token lists that the grammar derives as an expression, the one
that is written has the fewest parentheses, so no pair can be left out of the text.
-/
namespace AgentBlocks

/-- One more pair when the class is beyond the level of its place. -/
def Precedence.excess (level p : Precedence) : Nat := if level.level < p.level then 1 else 0

theorem Precedence.excess_anti {level level' : Precedence} (h : level.level ≤ level'.level)
    (p : Precedence) : level'.excess p ≤ level.excess p := by
  unfold excess
  split
  · rename_i hbeyond
    exact Nat.le_of_eq (if_pos (Nat.lt_of_le_of_lt h hbeyond)).symm
  · exact Nat.zero_le _

theorem Expression.excess_logical (e : Expression) : Precedence.logical.excess e.precedence = 0 :=
  if_neg (Nat.not_lt.2 e.precedence_le)

theorem Bound.count_group_upTo (q p : Precedence) (ts : List String) :
    ((Bound.upTo q).group p ts).count "(" = ts.count "(" + q.excess p := by
  unfold Bound.group Precedence.excess
  simp only [Bound.excludes_upTo]
  split <;> simp

/-- Beyond a strict bound is what is beyond the next tighter level. -/
theorem Bound.count_group_below {q q' : Precedence} (h : q'.level + 1 = q.level) (p : Precedence)
    (ts : List String) :
    ((Bound.below q).group p ts).count "(" = ts.count "(" + q'.excess p := by
  unfold Bound.group Precedence.excess
  simp only [Bound.excludes_below, ← h, Nat.succ_le_iff]
  split <;> simp

/-- The tokens of an expression have no more parentheses than any from which it is derived, and one
pair less where its class is beyond the level. -/
theorem Derives.count_tokens_le {v : Vocabulary} {level : Precedence} {ts : List String}
    {e : Expression} (h : Derives v level ts e) :
    e.tokens.count "(" + level.excess e.precedence ≤ ts.count "(" := by
  induction h with
  | leaf hleaf => exact Nat.le_refl _
  | @group ts e _ ih =>
      have hone : Precedence.atomic.excess e.precedence ≤ 1 := by
        unfold Precedence.excess
        split <;> omega
      rw [List.count_cons_self, List.count_append]
      omega
  | @call name ts x hname _ ih =>
      have hexcess : Precedence.functionCall.excess (Expression.call name x).precedence = 0 := rfl
      simp only [Expression.tokens, List.count_cons, Bound.count_group_upTo, hexcess]
      omega
  | @restricted ts us a c _ _ iha ihc =>
      have hexcess :
          Precedence.functionCall.excess (Expression.restricted a c).precedence = 0 := rfl
      simp only [Expression.tokens, List.count_append, List.count_cons, Bound.count_group_upTo,
        Expression.group_none, hexcess]
      omega
  | @reported ts us r a _ _ ihr iha =>
      have hexcess : Precedence.functionCall.excess (Expression.reported r a).precedence = 0 := rfl
      simp only [Expression.tokens, List.count_append, List.count_cons, Bound.count_group_upTo,
        Expression.group_none, hexcess]
      omega
  | @negated ts x _ ih =>
      have hexcess : Precedence.unary.excess (Expression.negated x).precedence = 0 := rfl
      simp only [Expression.tokens, List.count_cons, Bound.count_group_upTo, hexcess]
      omega
  | @infixed op level ts us a b hlevel _ _ iha ihb =>
      have hexcess : op.level.excess (Expression.infixed op a b).precedence = 0 :=
        if_neg (Nat.lt_irrefl _)
      simp only [Expression.tokens, List.count_append, List.count_cons, Bound.count_group_upTo,
        Bound.count_group_below hlevel, hexcess]
      omega
  | @loosen level level' ts e hlevel _ _ ih =>
      have hle : level.level ≤ level'.level := by omega
      have hanti := Precedence.excess_anti hle e.precedence
      omega

open Text

namespace Scan

/-- Where a scan is with regard to text literals. -/
def quoting : Scan → Quoting
  | .gap | .word _ => .outside
  | .literal _ => .inside
  | .escape _ => .escaped

/-- What has been read is no parenthesis, and goes on to be none. -/
def Begun : Scan → Prop
  | .gap => True
  | .word read | .literal read | .escape read => read ≠ [] ∧ read ≠ ['(']

theorem begun_snoc {read : List Char} (h : read ≠ []) (c : Char) :
    read ++ [c] ≠ [] ∧ read ++ [c] ≠ ['('] := by
  refine ⟨by simp, fun heq => ?_⟩
  have hlength := congrArg List.length heq
  have hpos := List.length_pos_iff.2 h
  rw [List.length_append, List.length_singleton, List.length_singleton] at hlength
  omega

theorem count_ofList {read : List Char} (h : read ≠ ['(']) :
    [String.ofList read].count "(" = 0 := by
  rw [List.count_eq_zero, List.mem_singleton]
  intro heq
  have hread : "(".toList = read := by rw [heq, String.toList_ofList]
  exact h hread.symm

/-- A character outside of words and literals is a parenthesis, or it begins something else. -/
theorem start_spec (c : Char) :
    (start c).2.Begun ∧ (start c).2.quoting = Quoting.outside.after c ∧
      (start c).1.count "(" = if c = '(' then 1 else 0 := by
  have hquote : ∀ d : Char, isBlank d = true ∨ isBracket d = true → d ≠ '"' := by
    rintro d hd rfl
    revert hd
    decide
  unfold start
  split
  · rename_i hblank
    have hne : c ≠ '(' := by
      rintro rfl
      revert hblank
      decide
    exact ⟨trivial, by simp [quoting, Quoting.after, hquote c (.inl hblank)], by simp [hne]⟩
  · split
    · rename_i hbracket
      refine ⟨trivial, by simp [quoting, Quoting.after, hquote c (.inr hbracket)], ?_⟩
      split
      · rename_i heq
        rw [heq]
        decide
      · rename_i hne
        exact count_ofList fun heq => hne (List.singleton_inj.1 heq)
    · rename_i hbracket
      have hne : c ≠ '(' := by
        rintro rfl
        exact hbracket rfl
      split
      · rename_i heq
        subst heq
        exact ⟨⟨by decide, by decide⟩, by decide, by decide⟩
      · rename_i hnoquote
        exact ⟨⟨by simp, by simpa using hne⟩, by simp [quoting, Quoting.after, hnoquote],
          rfl⟩

theorem Begun.step_spec {scan : Scan} (h : scan.Begun) (c : Char) :
    (scan.step c).2.Begun ∧ (scan.step c).2.quoting = scan.quoting.after c ∧
      (scan.step c).1.count "(" = if scan.quoting = .outside ∧ c = '(' then 1 else 0 := by
  obtain ⟨hbegun, hquoting, hcount⟩ := start_spec c
  cases scan with
  | gap => exact ⟨hbegun, hquoting, by simpa [quoting, step] using hcount⟩
  | word read =>
      rw [step]
      split
      · rename_i hword
        have hne : c ≠ '(' := by
          rintro rfl
          revert hword
          decide
        have hnoquote : c ≠ '"' := by
          rintro rfl
          revert hword
          decide
        exact ⟨begun_snoc h.1 c, by simp [quoting, Quoting.after, hnoquote], by simp [hne]⟩
      · refine ⟨hbegun, hquoting, ?_⟩
        have hread := count_ofList h.2
        rw [← List.singleton_append, List.count_append, hread, hcount, Nat.zero_add]
        simp [quoting]
  | literal read =>
      rw [step]
      split
      · rename_i hslash
        exact ⟨begun_snoc h.1 c, by simp [quoting, Quoting.after, hslash], by simp [quoting]⟩
      · split
        · rename_i hquote
          exact ⟨trivial, by simp [quoting, Quoting.after, hquote],
            (count_ofList (begun_snoc h.1 c).2).trans (by simp [quoting])⟩
        · rename_i hslash hquote
          exact ⟨begun_snoc h.1 c, by simp [quoting, Quoting.after, hslash, hquote],
            by simp [quoting]⟩
  | escape read => exact ⟨begun_snoc h.1 c, rfl, by simp [quoting, step]⟩

/-- The parentheses among the tokens are those that stand outside of literals. -/
theorem Begun.count_tokens {scan : Scan} (h : scan.Begun) (cs : List Char) :
    (scan.tokens cs).count "(" = (unquoted scan.quoting cs).count '(' := by
  induction cs generalizing scan with
  | nil =>
      cases scan with
      | gap => rfl
      | word read => exact count_ofList h.2
      | literal read => exact count_ofList h.2
      | escape read => exact count_ofList h.2
  | cons c cs ih =>
      obtain ⟨hbegun, hquoting, hcount⟩ := h.step_spec c
      rw [tokens_cons, List.count_append, ih hbegun, hcount, hquoting, unquoted]
      by_cases hc : c = '('
      · subst hc
        by_cases hq : scan.quoting = .outside <;> simp [hq, Nat.add_comm]
      · by_cases hkept : scan.quoting = .outside ∧ c ≠ '"' <;> simp [hkept, hc]

end Scan

namespace Text

/-- No text literal is open where the text ends. -/
def Outside (s : String) : Prop := s.toList.foldl Quoting.after .outside = .outside

instance (s : String) : Decidable (Outside s) := inferInstanceAs (Decidable (_ = _))

variable {a b : String}

theorem Outside.append_iff (ha : Outside a) : Outside (a ++ b) ↔ Outside b := by
  unfold Outside at ha ⊢
  rw [String.toList_append, List.foldl_append, ha]

theorem unquoted_append (q : Quoting) (cs ds : List Char) :
    unquoted q (cs ++ ds) = unquoted q cs ++ unquoted (cs.foldl Quoting.after q) ds := by
  induction cs generalizing q with
  | nil => rfl
  | cons c cs ih =>
      rw [List.cons_append, unquoted, unquoted, ih, List.foldl_cons]
      split <;> rfl

theorem count_tokens (s : String) :
    (tokens s).count "(" = (unquoted .outside s.toList).count '(' := by
  have hgap : Scan.gap.Begun := trivial
  exact hgap.count_tokens s.toList

/-- A parenthesis is a token of its own wherever it stands, also where the words at both sides of
it come together once it is left out. -/
theorem Outside.count_tokens_append (ha : Outside a) (b : String) :
    (tokens (a ++ b)).count "(" = (tokens a).count "(" + (tokens b).count "(" := by
  rw [count_tokens, count_tokens, count_tokens, String.toList_append, unquoted_append, ha,
    List.count_append]

theorem count_tokens_unparenthesized {before within : String} (hbefore : Outside before)
    (hwithin : Outside (before ++ "(" ++ within)) (after : String) :
    (tokens (before ++ "(" ++ within ++ ")" ++ after)).count "(" =
      (tokens (before ++ within ++ after)).count "(" + 1 := by
  have hopen : Outside (before ++ "(") := hbefore.append_iff.2 (by decide)
  have hinner : Outside within := hopen.append_iff.1 hwithin
  have hclose : Outside (before ++ "(" ++ within ++ ")") := hwithin.append_iff.2 (by decide)
  have hplain : Outside (before ++ within) := hbefore.append_iff.2 hinner
  have hone : (tokens "(").count "(" = 1 := by decide
  have hnone : (tokens ")").count "(" = 0 := by decide
  rw [hclose.count_tokens_append, hwithin.count_tokens_append, hopen.count_tokens_append,
    hbefore.count_tokens_append, hplain.count_tokens_append, hbefore.count_tokens_append, hone,
    hnone]
  omega

end Text

namespace Surroundings

open Walk

/-- The text and the class that stand for a tree of value blocks: wherever a walk comes to its root
they are what it yields, and if the tree is all of the program, the text is the program. -/
structure Writes (s : Surroundings) (id code : String) (p : Precedence) : Prop where
  walk : ∀ depth t outcome t',
    (∀ steps role x, s.Route .value id steps role x → t.holds x = false) →
    s.walkValue (s.render depth) id t = some (outcome, t') →
    outcome = .ok (code, p) ∧ t' = t
  ends : ∀ depth t, s.workspace.size ≤ depth → s.walkValue (s.render depth) id t ≠ none
  program : s.workspace.topLevelIds = [id] → (s.workspace.block? id).bind (·.next) = none →
    generate s.catalog ⟨s.indentWidth, false⟩ s.workspace s.registries = .ok code

theorem Expresses.writes {s : Surroundings} {id : String} {e : Expression}
    (hs : s.catalog = .standard) (h : s.Expresses (.block id) e) :
    s.Writes id e.text e.precedence where
  walk _ _ _ _ hfree hwalk := h.walkValue hs (fun hroute => hfree _ _ _ hroute) hwalk
  ends depth t hdepth := by
    have hends : ∀ b type, Ends (s.Active (0 + 1)) (s.render depth b type) :=
      s.ends_render depth (by omega)
    exact ends_walkValue hends id t (active_zero t)
  program hheads hnext := h.generate hs hheads hnext

end Surroundings

open Surroundings

/-- The text that stands for a tree of value blocks has the fewest parentheses of all texts from
which the grammar derives the tree. So no parenthesis with one behind it can be left out, be they a
matching pair or not: neither from the tokens, nor from the text itself. -/
theorem not_derives_of_unparenthesized (v : Vocabulary) {s : Surroundings}
    (hs : s.catalog = .standard) {id : String} {e : Expression}
    (htree : s.Expresses (.block id) e) (hspelled : e.Spelled v) :
    ∃ code : String, s.Writes id code e.precedence ∧ Derives v .logical (Text.tokens code) e ∧
      (∀ ts, Derives v .logical ts e → (Text.tokens code).count "(" ≤ ts.count "(") ∧
      (∀ before within after, Text.tokens code = before ++ "(" :: (within ++ ")" :: after) →
        ¬ Derives v .logical (before ++ within ++ after) e) ∧
      ∀ before within after : String, code = before ++ "(" ++ within ++ ")" ++ after →
        Text.Outside before → Text.Outside (before ++ "(" ++ within) →
        ¬ Derives v .logical (Text.tokens (before ++ within ++ after)) e := by
  have hminimal : ∀ ts, Derives v .logical ts e →
      (Text.tokens e.text).count "(" ≤ ts.count "(" := by
    intro ts hts
    have hle := hts.count_tokens_le
    rw [e.excess_logical] at hle
    rwa [e.tokens_text hspelled]
  refine ⟨e.text, htree.writes hs, ?_, hminimal, ?_, ?_⟩
  · rw [e.tokens_text hspelled]
    exact (e.derives hspelled).loosen_of_le e.precedence_le (Nat.le_refl _)
  · intro before within after htokens hderives
    have hle := hminimal _ hderives
    rw [htokens] at hle
    simp only [List.count_append, List.count_cons_self] at hle
    have hclose : (")" :: after).count "(" = after.count "(" := List.count_cons_of_ne (by decide)
    omega
  · intro before within after htext hbefore hwithin hderives
    have hle := hminimal _ hderives
    rw [htext, Text.count_tokens_unparenthesized hbefore hwithin] at hle
    omega

theorem not_derives_unparenthesized_nestedDifference :
    generate .standard ⟨2, false⟩ nestedDifference .empty = .ok "0 - (0 - ticks)" ∧
      ¬ Derives (.ofRegistries .empty Registries.coherent_empty) .logical
        (Text.tokens "0 - 0 - ticks")
        (.infixed .sub (.leaf "0") (.infixed .sub (.leaf "0") (.leaf "ticks"))) := by
  have hleaf : ∀ token ∈ ["0", "ticks"],
      Expression.Spelled (.ofRegistries .empty Registries.coherent_empty) (.leaf token) := by
    intro token htoken
    rcases List.mem_pair.1 htoken with rfl | rfl
    · exact ⟨⟨by decide, by decide, by decide⟩, .word (by decide) (by decide)⟩
    · exact ⟨⟨by decide, by decide, by decide⟩, .word (by decide) (by decide)⟩
  have hzero := hleaf "0" (by decide)
  obtain ⟨code, hwrites, -, -, -, hunparenthesized⟩ :=
    not_derives_of_unparenthesized (.ofRegistries .empty Registries.coherent_empty)
      (by dsimp only) expresses_nestedDifference ⟨hzero, hzero, hleaf "ticks" (by decide)⟩
  have hprogram := hwrites.program (by decide +kernel) (by decide +kernel)
  have htext := expresses_nestedDifference.generate (by dsimp only) (by decide +kernel)
    (by decide +kernel)
  dsimp only at hprogram htext
  have hcode : code = "0 - (0 - ticks)" := Except.ok.inj (hprogram.symm.trans htext)
  subst hcode
  exact ⟨hprogram, hunparenthesized "0 - " "0 - ticks" "" (by decide) (by decide) (by decide)⟩

end AgentBlocks
