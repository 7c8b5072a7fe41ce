import AgentBlocks.Catalog.Precedence
import AgentBlocks.Proofs.Expression.Tokens

/-!
The grammar of expressions, with one level for each class. Its derivations are found by a reader
that goes over the tokens once and keeps what is still open on a stack, so it is unambiguous.
-/
namespace AgentBlocks

inductive Operator where
  | and | or | xor
  | eq | ne
  | lt | le | gt | ge
  | add | sub
  | mul | div | mod
  | pow
deriving DecidableEq

namespace Operator

def symbol : Operator → String
  | .and => "and"
  | .or => "or"
  | .xor => "xor"
  | .eq => "="
  | .ne => "!="
  | .lt => "<"
  | .le => "<="
  | .gt => ">"
  | .ge => ">="
  | .add => "+"
  | .sub => "-"
  | .mul => "*"
  | .div => "/"
  | .mod => "mod"
  | .pow => "^"

def level : Operator → Precedence
  | .and | .or | .xor => .logical
  | .eq | .ne => .equality
  | .lt | .le | .gt | .ge => .relational
  | .add | .sub => .additive
  | .mul | .div | .mod => .multiplicative
  | .pow => .exponent

def all : List Operator :=
  [.and, .or, .xor, .eq, .ne, .lt, .le, .gt, .ge, .add, .sub, .mul, .div, .mod, .pow]

def ofToken? (token : String) : Option Operator := all.find? (·.symbol == token)

@[simp] theorem ofToken?_symbol (op : Operator) : ofToken? op.symbol = some op := by
  cases op <;> decide

theorem level_le (op : Operator) : op.level.level ≤ Precedence.logical.level := by
  cases op <;> decide

theorem exponent_le_level (op : Operator) : Precedence.exponent.level ≤ op.level.level := by
  cases op <;> decide

end Operator

/-- An expression, without regard to how it is written. -/
inductive Expression where
  | leaf (token : String)
  | infixed (op : Operator) (left right : Expression)
  | negated (operand : Expression)
  | call (name : String) (argument : Expression)
  | restricted (agents condition : Expression)
  | reported (reporter agents : Expression)

/-- The tokens with a meaning of their own, besides the operators. -/
def keywords : List String := ["not", "with", "of", "(", ")", "[", "]"]

/-- The names of functions: single tokens and no keywords. -/
structure Vocabulary where
  names : List String
  lexeme : ∀ name ∈ names, Lexeme name
  plain : ∀ name ∈ names, name ∉ keywords

/-- A token that stands for a value: no operator, no keyword and no name of a function. -/
structure Vocabulary.IsLeaf (v : Vocabulary) (token : String) : Prop where
  operator : Operator.ofToken? token = none
  keyword : token ∉ keywords
  name : token ∉ v.names

/-- The tokens are derived at a level of the grammar, as the given expression. -/
inductive Derives (v : Vocabulary) : Precedence → List String → Expression → Prop
  | leaf {token} : v.IsLeaf token → Derives v .atomic [token] (.leaf token)
  | group {ts e} : Derives v .logical ts e → Derives v .atomic ("(" :: (ts ++ [")"])) e
  | call {name ts x} : name ∈ v.names → Derives v .atomic ts x →
      Derives v .functionCall (name :: ts) (.call name x)
  | restricted {ts us a c} : Derives v .atomic ts a → Derives v .logical us c →
      Derives v .functionCall (ts ++ "with" :: "[" :: (us ++ ["]"])) (.restricted a c)
  | reported {ts us r a} : Derives v .logical ts r → Derives v .atomic us a →
      Derives v .functionCall ("[" :: (ts ++ "]" :: "of" :: us)) (.reported r a)
  | negated {ts x} : Derives v .unary ts x → Derives v .unary ("not" :: ts) (.negated x)
  | infixed {op level ts us a b} : level.level + 1 = op.level.level → Derives v op.level ts a →
      Derives v level us b → Derives v op.level (ts ++ op.symbol :: us) (.infixed op a b)
  | loosen {level level' ts e} : level.level + 1 = level'.level →
      level'.level ≤ Precedence.logical.level → Derives v level ts e → Derives v level' ts e

/-- What the reader has begun and not yet ended. -/
inductive Frame where
  | infixed (op : Operator) (left : Expression)
  | negated
  | call (name : String)
  | reported (reporter : Expression)
  | group
  | restricted (agents : Expression)
  | bracket

namespace Frame

/-- The expression that is ended by an operand. -/
def fill : Frame → Expression → Expression
  | .infixed op a, b => .infixed op a b
  | .negated, x => .negated x
  | .call name, x => .call name x
  | .reported r, a => .reported r a
  | .group, e | .restricted _, e | .bracket, e => e

/-- The level of what is begun, unless it is ended by a bracket only. -/
def level? : Frame → Option Precedence
  | .infixed op _ => some op.level
  | .negated => some .unary
  | .call _ | .reported _ => some .functionCall
  | .group | .restricted _ | .bracket => none

/-- Whether the operand ends what is begun before an operator of a level. -/
def Ends (level : Precedence) (f : Frame) : Prop := ∃ p ∈ f.level?, p.level ≤ level.level

instance (level : Precedence) : DecidablePred (Ends level) := fun f =>
  inferInstanceAs (Decidable (∃ p ∈ f.level?, p.level ≤ level.level))

theorem Ends.mono {level level' : Precedence} {f : Frame} (h : f.Ends level)
    (hle : level.level ≤ level'.level) : f.Ends level' := by
  obtain ⟨p, hp, hlevel⟩ := h
  exact ⟨p, hp, Nat.le_trans hlevel hle⟩

theorem not_ends_atomic (f : Frame) : ¬f.Ends .atomic := by
  rintro ⟨p, hp, hle⟩
  have hpos : 0 < p.level := by
    cases f with
    | infixed op a =>
        cases hp
        exact Nat.lt_of_lt_of_le (by decide) op.exponent_le_level
    | _ => cases hp <;> decide
  exact absurd hle (Nat.not_le_of_gt hpos)

end Frame

/-- The reader between two tokens: what is open, innermost first, and the operand that has just
been read, if it does not wait for one. -/
structure Reader where
  frames : List Frame
  operand : Option Expression

namespace Reader

def close (level : Precedence) : List Frame → Expression → List Frame × Expression
  | [], e => ([], e)
  | f :: frames, e => if f.Ends level then close level frames (f.fill e) else (f :: frames, e)

def step (v : Vocabulary) (token : String) : Reader → Option Reader
  | ⟨frames, none⟩ =>
    if token = "(" then some ⟨.group :: frames, none⟩
    else if token = "[" then some ⟨.bracket :: frames, none⟩
    else if token = "not" then some ⟨.negated :: frames, none⟩
    else if token ∈ v.names then some ⟨.call token :: frames, none⟩
    else some ⟨frames, some (.leaf token)⟩
  | ⟨frames, some e⟩ =>
    match Operator.ofToken? token with
    | some op =>
      let (frames, a) := close op.level frames e
      some ⟨.infixed op a :: frames, none⟩
    | none =>
      if token = "with" then some ⟨.restricted e :: frames, none⟩
      else if token = "of" then some ⟨.reported e :: frames, none⟩
      else if token = ")" then
        match close .logical frames e with
        | (.group :: frames, e) => some ⟨frames, some e⟩
        | _ => none
      else if token = "]" then
        match close .logical frames e with
        | (.bracket :: .restricted a :: frames, c) => some ⟨frames, some (.restricted a c)⟩
        | (.bracket :: frames, r) => some ⟨frames, some r⟩
        | _ => none
      else none

def run (v : Vocabulary) : List String → Reader → Option Reader
  | [], r => some r
  | token :: ts, r => (r.step v token).bind (run v ts)

variable {v : Vocabulary} {level : Precedence} {frames fs : List Frame} {e : Expression}

theorem run_cons {token : String} {r r' : Reader} (h : r.step v token = some r')
    (ts : List String) : run v (token :: ts) r = run v ts r' := by
  rw [run, h, Option.bind_some]

theorem run_append {ts : List String} {r r' : Reader} (h : run v ts r = some r')
    (us : List String) : run v (ts ++ us) r = run v us r' := by
  induction ts generalizing r with
  | nil =>
      cases h
      rfl
  | cons token ts ih =>
      obtain ⟨r₁, hstep, hrun⟩ := Option.bind_eq_some_iff.1 h
      rw [List.cons_append, run_cons hstep]
      exact ih hrun

/-- The expression that an operand ends together with all that is open. -/
def fillAll (fs : List Frame) (e : Expression) : Expression := fs.foldl (fun e f => f.fill e) e

theorem fillAll_append (fs gs : List Frame) (e : Expression) :
    fillAll (fs ++ gs) e = fillAll gs (fillAll fs e) := List.foldl_append

theorem close_append (hfs : ∀ f ∈ fs, f.Ends level) (frames : List Frame) (e : Expression) :
    close level (fs ++ frames) e = close level frames (fillAll fs e) := by
  induction fs generalizing e with
  | nil => rfl
  | cons f fs ih =>
      rw [List.cons_append, close, if_pos (hfs f List.mem_cons_self)]
      exact ih (fun f hf => hfs f (List.mem_cons_of_mem _ hf)) (f.fill e)

theorem close_cons {f : Frame} (hf : ¬f.Ends level) (frames : List Frame) (e : Expression) :
    close level (f :: frames) e = (f :: frames, e) := by
  rw [close, if_neg hf]

/-- What is open lets an expression of a level be read before it ends. -/
def Waits (level : Precedence) (frames : List Frame) : Prop :=
  ∀ f ∈ frames.head?, (∀ a, f ≠ .restricted a) ∧
    ∀ op : Operator, op.level.level ≤ level.level → ¬f.Ends op.level

theorem waits_nil (level : Precedence) : Waits level [] := nofun

theorem waits_cons {f : Frame} (hf : ∀ a, f ≠ .restricted a)
    (hends : ∀ op : Operator, op.level.level ≤ level.level → ¬f.Ends op.level) :
    Waits level (f :: frames) := by
  intro f' hf'
  cases hf'
  exact ⟨hf, hends⟩

theorem Waits.mono {level' : Precedence} (h : Waits level' frames)
    (hle : level.level ≤ level'.level) : Waits level frames := by
  intro f hf
  obtain ⟨hne, hends⟩ := h f hf
  exact ⟨hne, fun op hop => hends op (Nat.le_trans hop hle)⟩

theorem Waits.close {op : Operator} (h : Waits op.level frames) (e : Expression) :
    close op.level frames e = (frames, e) := by
  cases frames with
  | nil => rfl
  | cons f frames => exact close_cons ((h f rfl).2 op (Nat.le_refl _)) frames e

theorem waits_atomic {f : Frame} (hf : ∀ a, f ≠ .restricted a) : Waits .atomic (f :: frames) := by
  refine waits_cons hf fun op hop => ?_
  have hle := op.exponent_le_level
  exact absurd (Nat.le_trans hle hop) (by decide)

/-- Nothing that an operand could end is left open by an atomic expression. -/
theorem eq_nil_of_ends (hfs : ∀ f ∈ fs, f.Ends .atomic) : fs = [] :=
  List.eq_nil_iff_forall_not_mem.2 fun f hf => f.not_ends_atomic (hfs f hf)

theorem step_leaf {token : String} (h : v.IsLeaf token) (frames : List Frame) :
    step v token ⟨frames, none⟩ = some ⟨frames, some (.leaf token)⟩ := by
  have hkeyword := h.keyword
  simp only [keywords, List.mem_cons, not_or] at hkeyword
  simp [step, hkeyword, h.name]

theorem step_name {name : String} (h : name ∈ v.names) (frames : List Frame) :
    step v name ⟨frames, none⟩ = some ⟨.call name :: frames, none⟩ := by
  have hkeyword := v.plain name h
  simp only [keywords, List.mem_cons, not_or] at hkeyword
  simp [step, hkeyword, h]

theorem step_open_group (frames : List Frame) :
    step v "(" ⟨frames, none⟩ = some ⟨.group :: frames, none⟩ := by
  simp [step]

theorem step_open_bracket (frames : List Frame) :
    step v "[" ⟨frames, none⟩ = some ⟨.bracket :: frames, none⟩ := by
  simp [step]

theorem step_not (frames : List Frame) :
    step v "not" ⟨frames, none⟩ = some ⟨.negated :: frames, none⟩ := by
  simp [step]

theorem step_operator (op : Operator) (frames : List Frame) (e : Expression) :
    step v op.symbol ⟨frames, some e⟩ =
      some ⟨.infixed op (close op.level frames e).2 :: (close op.level frames e).1, none⟩ := by
  simp [step]

theorem ofToken?_keyword : ∀ token ∈ keywords, Operator.ofToken? token = none := by decide

theorem step_with (frames : List Frame) (e : Expression) :
    step v "with" ⟨frames, some e⟩ = some ⟨.restricted e :: frames, none⟩ := by
  simp [step, ofToken?_keyword "with" (by decide)]

theorem step_of (frames : List Frame) (e : Expression) :
    step v "of" ⟨frames, some e⟩ = some ⟨.reported e :: frames, none⟩ := by
  simp [step, ofToken?_keyword "of" (by decide)]

/-- What has been read since a bracket ends at the one that closes it. -/
theorem close_bracketed {f : Frame} (hf : ∀ level, ¬f.Ends level)
    (hfs : ∀ f ∈ fs, f.Ends .logical) (frames : List Frame) (e : Expression) :
    close .logical (fs ++ f :: frames) e = (f :: frames, fillAll fs e) := by
  rw [close_append hfs, close_cons (hf .logical)]

theorem not_ends_group (level : Precedence) : ¬Frame.group.Ends level := by
  rintro ⟨p, hp, -⟩
  cases hp

theorem not_ends_bracket (level : Precedence) : ¬Frame.bracket.Ends level := by
  rintro ⟨p, hp, -⟩
  cases hp

theorem step_group (hfs : ∀ f ∈ fs, f.Ends .logical) (frames : List Frame) (e : Expression) :
    step v ")" ⟨fs ++ .group :: frames, some e⟩ = some ⟨frames, some (fillAll fs e)⟩ := by
  simp [step, ofToken?_keyword ")" (by decide), close_bracketed not_ends_group hfs]

theorem step_restricted (hfs : ∀ f ∈ fs, f.Ends .logical) (frames : List Frame)
    (a e : Expression) :
    step v "]" ⟨fs ++ .bracket :: .restricted a :: frames, some e⟩ =
      some ⟨frames, some (.restricted a (fillAll fs e))⟩ := by
  simp [step, ofToken?_keyword "]" (by decide), close_bracketed not_ends_bracket hfs]

theorem step_bracket (hfs : ∀ f ∈ fs, f.Ends .logical) (hwaits : Waits level frames)
    (e : Expression) :
    step v "]" ⟨fs ++ .bracket :: frames, some e⟩ = some ⟨frames, some (fillAll fs e)⟩ := by
  simp only [step, ofToken?_keyword "]" (by decide), close_bracketed not_ends_bracket hfs]
  cases frames with
  | nil => rfl
  | cons f frames =>
      have hne := (hwaits f rfl).1
      cases f with
      | restricted a => exact absurd rfl (hne a)
      | _ => rfl

end Reader

open Reader

/-- The reader goes over the tokens of an expression with everything around it left open, and what
it has begun in the meantime ends together with the expression. -/
theorem Derives.run {v : Vocabulary} {level : Precedence} {ts : List String} {e : Expression}
    (h : Derives v level ts e) {frames : List Frame} (hwaits : Waits level frames) :
    ∃ fs x, Reader.run v ts ⟨frames, none⟩ = some ⟨fs ++ frames, some x⟩ ∧
      (∀ f ∈ fs, f.Ends level) ∧ fillAll fs x = e := by
  induction h generalizing frames with
  | leaf hleaf => exact ⟨[], _, run_cons (step_leaf hleaf frames) [], nofun, rfl⟩
  | @group ts e _ ih =>
      have hgroup : Waits .logical (.group :: frames) :=
        waits_cons nofun fun op _ => not_ends_group op.level
      obtain ⟨fs, x, hrun, hfs, rfl⟩ := ih hgroup
      refine ⟨[], _, ?_, nofun, rfl⟩
      rw [run_cons (step_open_group frames), run_append hrun, run_cons (step_group hfs frames x)]
      rfl
  | @call name ts x hname _ ih =>
      have hcall : Waits .atomic (.call name :: frames) := waits_atomic nofun
      obtain ⟨fs, x, hrun, hfs, rfl⟩ := ih hcall
      obtain rfl := eq_nil_of_ends hfs
      refine ⟨[.call name], x, ?_, ?_, rfl⟩
      · rw [run_cons (step_name hname frames), hrun]
        rfl
      · intro f hf
        cases List.mem_singleton.1 hf
        exact ⟨_, rfl, Nat.le_refl _⟩
  | @restricted ts us a c _ _ iha ihc =>
      obtain ⟨fs, a, hrun, hfs, rfl⟩ := iha (hwaits.mono (by decide))
      obtain rfl := eq_nil_of_ends hfs
      have hbracket : Waits .logical (.bracket :: .restricted a :: frames) :=
        waits_cons nofun fun op _ => not_ends_bracket op.level
      obtain ⟨gs, c, hrun', hgs, rfl⟩ := ihc hbracket
      refine ⟨[], .restricted a (fillAll gs c), ?_, nofun, rfl⟩
      rw [run_append hrun, List.nil_append, run_cons (step_with frames a)]
      rw [run_cons (step_open_bracket _), run_append hrun',
        run_cons (step_restricted hgs frames a c)]
      rfl
  | @reported ts us r a _ _ ihr iha =>
      have hbracket : Waits .logical (.bracket :: frames) :=
        waits_cons nofun fun op _ => not_ends_bracket op.level
      obtain ⟨fs, r, hrun, hfs, rfl⟩ := ihr hbracket
      have hof : Waits .atomic (.reported (fillAll fs r) :: frames) := waits_atomic nofun
      obtain ⟨gs, a, hrun', hgs, rfl⟩ := iha hof
      obtain rfl := eq_nil_of_ends hgs
      refine ⟨[.reported (fillAll fs r)], a, ?_, ?_, rfl⟩
      · rw [run_cons (step_open_bracket frames), run_append hrun]
        rw [run_cons (step_bracket hfs hwaits r), run_cons (step_of frames _), hrun']
        rfl
      · intro f hf
        cases List.mem_singleton.1 hf
        exact ⟨_, rfl, Nat.le_refl _⟩
  | @negated ts x _ ih =>
      have hnegated : Waits .unary (.negated :: frames) := by
        refine waits_cons nofun ?_
        rintro op hop ⟨p, hp, hle⟩
        cases hp
        revert hop hle
        cases op <;> decide
      obtain ⟨fs, x, hrun, hfs, rfl⟩ := ih hnegated
      refine ⟨fs ++ [.negated], x, ?_, ?_, fillAll_append fs _ x⟩
      · rw [run_cons (step_not frames), hrun, List.append_assoc]
        rfl
      · intro f hf
        rcases List.mem_append.1 hf with hf | hf
        · exact hfs f hf
        · cases List.mem_singleton.1 hf
          exact ⟨_, rfl, Nat.le_refl _⟩
  | @infixed op level ts us a b hlevel _ _ iha ihb =>
      obtain ⟨fs, a, hrun, hfs, rfl⟩ := iha hwaits
      -- the left operand ends before the operator, and what is around it does not
      have hclose : close op.level (fs ++ frames) a = (frames, fillAll fs a) := by
        rw [close_append hfs, hwaits.close]
      have hstep := step_operator (v := v) op (fs ++ frames) a
      rw [hclose] at hstep
      have hright : Waits level (.infixed op (fillAll fs a) :: frames) := by
        refine waits_cons nofun ?_
        rintro op' hop ⟨p, hp, hle⟩
        cases hp
        omega
      obtain ⟨gs, b, hrun', hgs, rfl⟩ := ihb hright
      refine ⟨gs ++ [.infixed op (fillAll fs a)], b, ?_, ?_, fillAll_append gs _ b⟩
      · rw [run_append hrun, run_cons hstep, hrun', List.append_assoc]
        rfl
      · intro f hf
        rcases List.mem_append.1 hf with hf | hf
        · exact (hgs f hf).mono (by omega)
        · cases List.mem_singleton.1 hf
          exact ⟨_, rfl, Nat.le_refl _⟩
  | loosen hlevel hle _ ih =>
      obtain ⟨fs, x, hrun, hfs, rfl⟩ := ih (hwaits.mono (by omega))
      exact ⟨fs, x, hrun, fun f hf => (hfs f hf).mono (by omega), rfl⟩

/-- The grammar is unambiguous. -/
theorem Derives.unique {v : Vocabulary} {level level' : Precedence} {ts : List String}
    {e e' : Expression} (h : Derives v level ts e) (h' : Derives v level' ts e') : e = e' := by
  obtain ⟨fs, x, hrun, -, rfl⟩ := h.run (waits_nil level)
  obtain ⟨gs, y, hrun', -, rfl⟩ := h'.run (waits_nil level')
  rw [hrun, Option.some.injEq, Reader.mk.injEq, List.append_nil, List.append_nil] at hrun'
  obtain ⟨rfl, hoperand⟩ := hrun'
  cases hoperand
  rfl

end AgentBlocks
