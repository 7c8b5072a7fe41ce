import AgentBlocks.Catalog.Wording

/-!
Blocks for arithmetic, comparison and logic. The operands of an operator are plugged into the slots
`A` and `B`, a single operand into `X`.
-/
namespace AgentBlocks.Standard

def mathFunctions : List String :=
  ["abs", "sqrt", "sin", "cos", "tan", "ln", "exp", "int", "round", "floor", "ceiling"]

def comparisons : List String := ["EQ", "NEQ", "LT", "LTE", "GT", "GTE"]

/-- The symbol and the class of a comparison. Orderings bind tighter than equations; an unknown
code is an equation. -/
def comparison (code : String) : String × Precedence :=
  if code = "NEQ" then ("!=", .equality)
  else if code = "LT" then ("<", .relational)
  else if code = "LTE" then ("<=", .relational)
  else if code = "GT" then (">", .relational)
  else if code = "GTE" then (">=", .relational)
  else ("=", .equality)

/-- A logical operator; an operand that is left empty is false. -/
def logical (name symbol : String) : Design :=
  (Design.operator name symbol .logical .boolean).withDefault "A" "false"
    |>.withDefault "B" "false"

def operatorBlocks : List Design :=
  [.operator "math_add" "+" .additive .number,
    .operator "math_subtract" "-" .additive .number,
    .operator "math_multiply" "*" .multiplicative .number,
    .operator "math_divide" "/" .multiplicative .number,
    .operator "math_mod" "mod" .multiplicative .number,
    .operator "math_power" "^" .exponent .number,
    logical "logic_and" "and",
    logical "logic_or" "or",
    logical "logic_xor" "xor",
    (Design.value "logic_compare" .boolean fun b _ =>
      let (symbol, precedence) := comparison (b.fieldOr "OP" "EQ")
      .infixed symbol precedence)
      |>.withField "OP" (.fixed comparisons),
    (Design.value "logic_not" .boolean fun _ _ =>
      .expression .unary [.text "not ", .value "X" (.upTo .unary)])
      |>.withDefault "X" "false",
    (Design.value "math_function" .number fun b _ => .call (b.fieldOr "OP" "abs") ["X"])
      |>.withField "OP" (.fixed mathFunctions),
    (Design.reporter "math_random" "random" ["X"] .number).withDefault "X" "10",
    (Design.reporter "math_random_float" "random-float" ["X"] .number).withDefault "X" "1"]

end AgentBlocks.Standard
