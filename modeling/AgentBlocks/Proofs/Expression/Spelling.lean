import AgentBlocks.Proofs.Expression.Grammar

/-!
How expressions are written: with parentheses exactly where an operand is beyond the bound of its
place. What is written is scanned into tokens from which the expression is derived.
-/
namespace AgentBlocks

/-- The tokens of an expression as they stand in a slot. -/
def Bound.group (b : Bound) (p : Precedence) (ts : List String) : List String :=
  if b.excludes p then "(" :: (ts ++ [")"]) else ts

namespace Expression

def precedence : Expression → Precedence
  | .leaf _ => .atomic
  | .infixed op _ _ => op.level
  | .negated _ => .unary
  | .call _ _ | .restricted _ _ | .reported _ _ => .functionCall

def tokens : Expression → List String
  | .leaf token => [token]
  | .infixed op a b =>
    (Bound.upTo op.level).group a.precedence a.tokens ++
      op.symbol :: (Bound.below op.level).group b.precedence b.tokens
  | .negated x => "not" :: (Bound.upTo .unary).group x.precedence x.tokens
  | .call name x => name :: (Bound.upTo .atomic).group x.precedence x.tokens
  | .restricted a c =>
    (Bound.upTo .atomic).group a.precedence a.tokens ++
      "with" :: "[" :: ((Bound.upTo .none).group c.precedence c.tokens ++ ["]"])
  | .reported r a =>
    "[" :: ((Bound.upTo .none).group r.precedence r.tokens ++
      "]" :: "of" :: (Bound.upTo .atomic).group a.precedence a.tokens)

def text : Expression → String
  | .leaf token => token
  | .infixed op a b =>
    (Bound.upTo op.level).enclose a.text a.precedence ++ (" " ++ op.symbol ++ " ") ++
      (Bound.below op.level).enclose b.text b.precedence
  | .negated x => "not " ++ (Bound.upTo .unary).enclose x.text x.precedence
  | .call name x => name ++ " " ++ (Bound.upTo .atomic).enclose x.text x.precedence
  | .restricted a c =>
    (Bound.upTo .atomic).enclose a.text a.precedence ++ " with [" ++
      (Bound.upTo .none).enclose c.text c.precedence ++ "]"
  | .reported r a =>
    "[" ++ (Bound.upTo .none).enclose r.text r.precedence ++ "] of " ++
      (Bound.upTo .atomic).enclose a.text a.precedence

/-- The leaves of an expression are leaves of the vocabulary and single tokens, and its functions
belong to the vocabulary. -/
def Spelled (v : Vocabulary) : Expression → Prop
  | .leaf token => v.IsLeaf token ∧ Lexeme token
  | .infixed _ a b => a.Spelled v ∧ b.Spelled v
  | .negated x => x.Spelled v
  | .call name x => name ∈ v.names ∧ x.Spelled v
  | .restricted a c => a.Spelled v ∧ c.Spelled v
  | .reported r a => r.Spelled v ∧ a.Spelled v

theorem precedence_le (e : Expression) : e.precedence.level ≤ Precedence.logical.level := by
  cases e with
  | infixed op a b => exact op.level_le
  | _ => simp only [precedence, Precedence.level, Nat.reduceLeDiff]

end Expression

variable {v : Vocabulary} {ts : List String} {e : Expression} {p : Precedence}

theorem Precedence.level_inj {p q : Precedence} (h : p.level = q.level) : p = q := by
  cases p <;> cases q <;> simp_all [level]

theorem Precedence.exists_tighter {p : Precedence} (h : 0 < p.level) :
    ∃ q : Precedence, q.level + 1 = p.level := by
  cases p with
  | atomic => cases h
  | functionCall => exact ⟨.atomic, rfl⟩
  | exponent => exact ⟨.functionCall, rfl⟩
  | unary => exact ⟨.exponent, rfl⟩
  | multiplicative => exact ⟨.unary, rfl⟩
  | additive => exact ⟨.multiplicative, rfl⟩
  | relational => exact ⟨.additive, rfl⟩
  | equality => exact ⟨.relational, rfl⟩
  | logical => exact ⟨.equality, rfl⟩
  | none => exact ⟨.logical, rfl⟩

/-- Looser levels derive all that tighter ones derive. -/
theorem Derives.loosen_of_le (h : Derives v p ts e) {q : Precedence} (hle : p.level ≤ q.level)
    (hq : q.level ≤ Precedence.logical.level) : Derives v q ts e := by
  obtain ⟨n, hn⟩ := Nat.exists_eq_add_of_le hle
  induction n generalizing q with
  | zero =>
      cases Precedence.level_inj hn
      exact h
  | succ n ih =>
      obtain ⟨q', hq'⟩ := Precedence.exists_tighter (show 0 < q.level by omega)
      exact .loosen hq' hq (ih (by omega) (by omega) (by omega))

/-- An expression in parentheses, or tight enough without them, is derived at the level of its
place. -/
theorem Derives.group_upTo (h : Derives v p ts e) (hp : p.level ≤ Precedence.logical.level)
    {q : Precedence} (hq : q.level ≤ Precedence.logical.level) :
    Derives v q ((Bound.upTo q).group p ts) e := by
  unfold Bound.group
  split
  · have hlogical : Derives v .logical ts e := h.loosen_of_le hp (Nat.le_refl _)
    exact (Derives.group hlogical).loosen_of_le (Nat.zero_le _) hq
  · rename_i hexcludes
    rw [Bound.excludes_upTo, Nat.not_lt] at hexcludes
    exact h.loosen_of_le hexcludes hq

theorem Derives.group_below (h : Derives v p ts e) (hp : p.level ≤ Precedence.logical.level)
    {q q' : Precedence} (hq' : q'.level + 1 = q.level) (hq : q.level ≤ Precedence.logical.level) :
    Derives v q' ((Bound.below q).group p ts) e := by
  unfold Bound.group
  split
  · have hlogical : Derives v .logical ts e := h.loosen_of_le hp (Nat.le_refl _)
    exact (Derives.group hlogical).loosen_of_le (Nat.zero_le _) (by omega)
  · rename_i hexcludes
    rw [Bound.excludes_below, Nat.not_le] at hexcludes
    exact h.loosen_of_le (by omega) (by omega)

theorem Expression.group_none (e : Expression) :
    (Bound.upTo .none).group e.precedence e.tokens = e.tokens := by
  have hle : e.precedence.level ≤ Precedence.none.level :=
    Nat.le_trans e.precedence_le (by decide)
  rw [Bound.group, if_neg (by rw [Bound.excludes_upTo]; exact Nat.not_lt.2 hle)]

/-- The grammar derives an expression from its tokens, at the level of its class. -/
theorem Expression.derives (e : Expression) (h : e.Spelled v) :
    Derives v e.precedence e.tokens e := by
  induction e with
  | leaf token => exact .leaf h.1
  | infixed op a b iha ihb =>
      have hpos : 0 < op.level.level := Nat.lt_of_lt_of_le (by decide) op.exponent_le_level
      obtain ⟨q, hq⟩ := Precedence.exists_tighter hpos
      have hleft := (iha h.1).group_upTo a.precedence_le op.level_le
      have hright := (ihb h.2).group_below b.precedence_le hq op.level_le
      exact .infixed hq hleft hright
  | negated x ih => exact .negated ((ih h).group_upTo x.precedence_le (by decide))
  | call name x ih => exact .call h.1 ((ih h.2).group_upTo x.precedence_le (by decide))
  | restricted a c iha ihc =>
      have hagents := (iha h.1).group_upTo a.precedence_le (q := .atomic) (by decide)
      have hcondition := (ihc h.2).loosen_of_le c.precedence_le (Nat.le_refl _)
      rw [tokens, c.group_none]
      exact .restricted hagents hcondition
  | reported r a ihr iha =>
      have hreporter := (ihr h.1).loosen_of_le r.precedence_le (Nat.le_refl _)
      have hagents := (iha h.2).group_upTo a.precedence_le (q := .atomic) (by decide)
      rw [tokens, r.group_none]
      exact .reported hreporter hagents

namespace Scan

/-- The text is scanned into the tokens wherever a word may end after it. -/
def Yields (code : String) (ts : List String) : Prop :=
  ∀ rest, AtEdge rest → gap.tokens (code.toList ++ rest) = ts ++ gap.tokens rest

theorem yields_lexeme {s : String} (h : Lexeme s) : Yields s [s] :=
  fun _ hrest => tokens_lexeme h hrest

theorem atEdge_blank (rest : List Char) : AtEdge (' ' :: rest) := atEdge_cons (by decide)

theorem Yields.blank {a b : String} {ts us : List String} (ha : Yields a ts) (hb : Yields b us) :
    Yields (a ++ (" " ++ b)) (ts ++ us) := by
  intro rest hrest
  have hblank : (" " ++ b).toList ++ rest = ' ' :: (b.toList ++ rest) := by
    simp [String.toList_append]
  rw [String.toList_append, List.append_assoc, hblank, ha _ (atEdge_blank _), tokens_blank,
    hb rest hrest, List.append_assoc]

theorem Yields.within {a l r : String} {c d : Char} {ts : List String} (ha : Yields a ts)
    (hl : l = String.ofList [c]) (hr : r = String.ofList [d]) (hc : isBracket c = true)
    (hd : isBracket d = true) : Yields (l ++ (a ++ r)) (l :: (ts ++ [r])) := by
  subst hl hr
  intro rest hrest
  have hedge : AtEdge (d :: rest) := atEdge_cons (by simp [isWordChar, hd])
  simp only [String.toList_append, String.toList_ofList, List.append_assoc, List.cons_append,
    List.nil_append]
  rw [tokens_bracket hc, ha _ hedge, tokens_bracket hd]

theorem Yields.brackets {code : String} {ts : List String} (h : Yields code ts) :
    Yields ("[" ++ (code ++ "]")) ("[" :: (ts ++ ["]"])) :=
  h.within (c := '[') (d := ']') rfl rfl rfl rfl

theorem Yields.enclose {code : String} {ts : List String} (h : Yields code ts) (b : Bound)
    (p : Precedence) : Yields (b.enclose code p) (b.group p ts) := by
  unfold Bound.enclose Bound.group
  split
  · rw [String.append_assoc]
    exact h.within (c := '(') (d := ')') rfl rfl rfl rfl
  · exact h

end Scan

theorem Operator.lexeme_symbol (op : Operator) : Lexeme op.symbol := by
  refine .word ?_ ?_ <;> cases op <;> decide

open Scan

/-- The text of an expression is scanned into its tokens. -/
theorem Expression.yields_text (e : Expression) (h : e.Spelled v) : Yields e.text e.tokens := by
  induction e with
  | leaf token => exact yields_lexeme h.2
  | infixed op a b iha ihb =>
      have hleft := (iha h.1).enclose (.upTo op.level) a.precedence
      have hright := (ihb h.2).enclose (.below op.level) b.precedence
      have hsymbol := yields_lexeme op.lexeme_symbol
      rw [text, tokens, String.append_assoc, String.append_assoc, String.append_assoc]
      exact hleft.blank (hsymbol.blank hright)
  | negated x ih =>
      have hnot : Yields "not" ["not"] := yields_lexeme (.word (by decide) (by decide))
      exact hnot.blank ((ih h).enclose (.upTo .unary) x.precedence)
  | call name x ih =>
      have hname := yields_lexeme (v.lexeme name h.1)
      rw [text, String.append_assoc]
      exact hname.blank ((ih h.2).enclose (.upTo .atomic) x.precedence)
  | restricted a c iha ihc =>
      have hwith : Yields "with" ["with"] := yields_lexeme (.word (by decide) (by decide))
      have hagents := (iha h.1).enclose (.upTo .atomic) a.precedence
      have hcondition := ((ihc h.2).enclose (.upTo .none) c.precedence).brackets
      have hpieces : " with [" = " " ++ ("with" ++ (" " ++ "[")) := by decide
      simp only [text, hpieces, String.append_assoc]
      exact hagents.blank (hwith.blank hcondition)
  | reported r a ihr iha =>
      have hof : Yields "of" ["of"] := yields_lexeme (.word (by decide) (by decide))
      have hreporter := ((ihr h.1).enclose (.upTo .none) r.precedence).brackets
      have hagents := (iha h.2).enclose (.upTo .atomic) a.precedence
      have hpieces : "] of " = "]" ++ (" " ++ ("of" ++ " ")) := by decide
      have hcode := hreporter.blank (hof.blank hagents)
      simp only [List.cons_append, List.append_assoc, List.nil_append] at hcode
      simp only [text, tokens, hpieces, String.append_assoc]
      simpa only [String.append_assoc] using hcode

theorem Expression.tokens_text (e : Expression) (h : e.Spelled v) :
    Text.tokens e.text = e.tokens := by
  have htokens := e.yields_text h [] atEdge_nil
  rw [List.append_nil] at htokens
  exact htokens.trans (List.append_nil _)

end AgentBlocks
