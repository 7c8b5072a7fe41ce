/-!
Classes of expressions by binding strength, and the bounds that a slot sets on the class of what
is plugged into it. An expression beyond the bound is put into parentheses.
-/
namespace AgentBlocks

/-- The class of an expression, tightest first. Orderings bind tighter than equations; all logical
operators share one class; a statement has the class `none`. -/
inductive Precedence where
  | atomic
  | functionCall
  | exponent
  | unary
  | multiplicative
  | additive
  | relational
  | equality
  | logical
  | none
deriving DecidableEq

/-- The place of a class, counted from the tightest. -/
def Precedence.level : Precedence → Nat
  | .atomic => 0
  | .functionCall => 1
  | .exponent => 2
  | .unary => 3
  | .multiplicative => 4
  | .additive => 5
  | .relational => 6
  | .equality => 7
  | .logical => 8
  | .none => 9

/-- The bound that a slot sets: looser classes are beyond it, and beyond a strict bound its own
class is too. -/
structure Bound where
  loosest : Precedence
  strict : Bool
deriving DecidableEq

namespace Bound

def upTo (p : Precedence) : Bound := ⟨p, false⟩

def below (p : Precedence) : Bound := ⟨p, true⟩

def excludes (b : Bound) (p : Precedence) : Bool :=
  if b.strict then b.loosest.level ≤ p.level else b.loosest.level < p.level

@[simp] theorem excludes_upTo {p q : Precedence} :
    (upTo q).excludes p = true ↔ q.level < p.level := decide_eq_true_iff

@[simp] theorem excludes_below {p q : Precedence} :
    (below q).excludes p = true ↔ q.level ≤ p.level := decide_eq_true_iff

/-- The expression as it stands in the slot. -/
def enclose (b : Bound) (code : String) (p : Precedence) : String :=
  if b.excludes p then "(" ++ code ++ ")" else code

end Bound

end AgentBlocks
