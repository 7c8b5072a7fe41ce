import AgentBlocks.Proofs.Catalog.Slots
import AgentBlocks.Proofs.Expression.Grammar

/-!
The standard block types that stand for the nodes of expressions, and the templates that render
them.
-/
namespace AgentBlocks

/-- A node of an expression, with the slots that hold its operands. -/
inductive Node where
  | leaf (token : String)
  | infixed (op : Operator)
  | negated
  | call (name slot : String)
  | restricted
  | reported

namespace Node

def template : Node → Template
  | .leaf token => .word token
  | .infixed op => .infixed op.symbol op.level
  | .negated => .expression .unary [.text "not ", .value "X" (.upTo .unary)]
  | .call name slot => .call name [slot]
  | .restricted =>
    .expression .functionCall
      [.value "AGENTS" (.upTo .atomic), .text " with [", .value "CONDITION" (.upTo .none),
        .text "]"]
  | .reported =>
    .expression .functionCall
      [.text "[", .value "REPORTER" (.upTo .none), .text "] of ", .value "AGENTS" (.upTo .atomic)]

def slots : Node → List String
  | .leaf _ => []
  | .infixed _ => ["A", "B"]
  | .negated => ["X"]
  | .call _ slot => [slot]
  | .restricted => ["AGENTS", "CONDITION"]
  | .reported => ["REPORTER", "AGENTS"]

/-- The expression with the node at its root and an operand for each slot. -/
def build (operand : String → Expression) : Node → Expression
  | .leaf token => .leaf token
  | .infixed op => .infixed op (operand "A") (operand "B")
  | .negated => .negated (operand "X")
  | .call name slot => .call name (operand slot)
  | .restricted => .restricted (operand "AGENTS") (operand "CONDITION")
  | .reported => .reported (operand "REPORTER") (operand "AGENTS")

theorem links_template (n : Node) : n.template.links = n.slots.map Link.input := by
  cases n <;> rfl

theorem not_mem_body (n : Node) (slot : String) (form : BodyForm) :
    Piece.body slot form ∉ n.template.pieces := by
  cases n <;> simp [template, Template.word, Template.infixed, Template.call, Template.expression]

theorem mem_slots_of_value (n : Node) {slot : String} {bound : Bound}
    (h : Piece.value slot bound ∈ n.template.pieces) : slot ∈ n.slots := by
  have hlink : Link.input slot ∈ n.template.links := List.mem_filterMap.2 ⟨_, h, rfl⟩
  rw [links_template, List.mem_map] at hlink
  obtain ⟨slot', hslot, heq⟩ := hlink
  cases heq
  exact hslot

/-- No slot puts an atomic expression into parentheses. -/
theorem not_excludes_atomic (n : Node) {slot : String} {bound : Bound}
    (h : Piece.value slot bound ∈ n.template.pieces) : ¬bound.excludes .atomic = true := by
  have hupTo : ∀ p, ¬(Bound.upTo p).excludes .atomic = true := by
    intro p
    rw [Bound.excludes_upTo]
    exact Nat.not_lt_zero p.level
  have hbelow : ∀ op : Operator, ¬(Bound.below op.level).excludes .atomic = true := by
    intro op
    rw [Bound.excludes_below]
    exact Nat.not_le_of_gt (Nat.lt_of_lt_of_le (by decide) op.exponent_le_level)
  cases n <;> simp only [template, Template.word, Template.infixed, Template.call,
    Template.expression, List.flatMap_cons, List.flatMap_nil, List.append_nil, List.mem_cons,
    List.not_mem_nil, reduceCtorEq, Piece.value.injEq, false_or, or_false] at h
  case infixed op =>
    rcases h with ⟨-, rfl⟩ | ⟨-, rfl⟩
    · exact hupTo op.level
    · exact hbelow op
  case negated => exact h.2 ▸ hupTo .unary
  case call name slot => exact h.2 ▸ hupTo .atomic
  case restricted =>
    rcases h with ⟨-, rfl⟩ | ⟨-, rfl⟩
    · exact hupTo .atomic
    · exact hupTo .none
  case reported =>
    rcases h with ⟨-, rfl⟩ | ⟨-, rfl⟩
    · exact hupTo .none
    · exact hupTo .atomic

theorem sizeOf_operand (n : Node) (operand : String → Expression) {slot : String}
    (h : slot ∈ n.slots) : sizeOf (operand slot) < sizeOf (n.build operand) := by
  cases n with
  | leaf token => cases h
  | infixed op =>
      simp only [slots, List.mem_cons, List.not_mem_nil, or_false] at h
      simp only [build, Expression.infixed.sizeOf_spec]
      rcases h with rfl | rfl <;> omega
  | negated =>
      cases List.mem_singleton.1 h
      simp only [build, Expression.negated.sizeOf_spec]
      omega
  | call name slot' =>
      cases List.mem_singleton.1 h
      simp only [build, Expression.call.sizeOf_spec]
      omega
  | restricted =>
      simp only [slots, List.mem_cons, List.not_mem_nil, or_false] at h
      simp only [build, Expression.restricted.sizeOf_spec]
      rcases h with rfl | rfl <;> omega
  | reported =>
      simp only [slots, List.mem_cons, List.not_mem_nil, or_false] at h
      simp only [build, Expression.reported.sizeOf_spec]
      rcases h with rfl | rfl <;> omega

end Node

namespace Standard

def operatorTypes : List (String × Operator) :=
  [("math_add", .add), ("math_subtract", .sub), ("math_multiply", .mul), ("math_divide", .div),
    ("math_mod", .mod), ("math_power", .pow), ("logic_and", .and), ("logic_or", .or),
    ("logic_xor", .xor)]

/-- The types of functions with a fixed name, with their names and slots. -/
def functionTypes : List (String × String × String) :=
  [("math_random", "random", "X"), ("math_random_float", "random-float", "X"),
    ("agentset_count", "count", "AGENTS"), ("agentset_any", "any?", "AGENTS"),
    ("agentset_one_of", "one-of", "AGENTS"), ("agentset_other", "other", "AGENTS")]

def leafTypes : List String :=
  ["math_number", "text", "logic_boolean", "color_constant", "observer_ticks", "agentset_breed",
    "agent_self", "agent_myself", "agent_nobody", "agent_property", "variable_get",
    "variable_local", "procedure_call_reporter"]

def comparisonOperator (code : String) : Operator :=
  if code = "NEQ" then .ne
  else if code = "LT" then .lt
  else if code = "LTE" then .le
  else if code = "GT" then .gt
  else if code = "GTE" then .ge
  else .eq

def template? (name : String) (b : Block) (r : Registries) : Option Template :=
  (designs.find? (·.name == name)).map fun d => d.template b r

/-- The node that a block stands for. -/
inductive IsNode (b : Block) (r : Registries) : Node → Prop
  | operator {op} : (b.blockType, op) ∈ operatorTypes → IsNode b r (.infixed op)
  | compare : b.blockType = "logic_compare" →
      IsNode b r (.infixed (comparisonOperator (b.fieldOr "OP" "EQ")))
  | negated : b.blockType = "logic_not" → IsNode b r .negated
  | function : b.blockType = "math_function" → b.fieldOr "OP" "abs" ∈ mathFunctions →
      IsNode b r (.call (b.fieldOr "OP" "abs") "X")
  | reporter {name slot} : (b.blockType, name, slot) ∈ functionTypes →
      IsNode b r (.call name slot)
  | numbered : b.blockType = "agent_numbered" →
      IsNode b r (.call (r.singularOf (b.fieldOr "BREED" "turtle")) "WHO")
  | restricted : b.blockType = "agentset_with" → IsNode b r .restricted
  | reported : b.blockType = "agent_of" → IsNode b r .reported
  | leaf {token} : b.blockType ∈ leafTypes → template? b.blockType b r = some (.word token) →
      IsNode b r (.leaf token)

theorem template_operator (b : Block) (r : Registries) : ∀ row ∈ operatorTypes,
    template? row.1 b r = some (.infixed row.2.symbol row.2.level) := by
  simp only [operatorTypes, List.forall_mem_cons]
  exact ⟨rfl, rfl, rfl, rfl, rfl, rfl, rfl, rfl, rfl, nofun⟩

theorem template_function (b : Block) (r : Registries) : ∀ row ∈ functionTypes,
    template? row.1 b r = some (.call row.2.1 [row.2.2]) := by
  simp only [functionTypes, List.forall_mem_cons]
  exact ⟨rfl, rfl, rfl, rfl, rfl, rfl, nofun⟩

theorem comparison_eq (code : String) :
    comparison code = ((comparisonOperator code).symbol, (comparisonOperator code).level) := by
  unfold comparison comparisonOperator
  repeat' split
  all_goals rfl

theorem IsNode.template {b : Block} {r : Registries} {n : Node} (h : IsNode b r n) :
    template? b.blockType b r = some n.template := by
  cases h with
  | operator hrow => exact template_operator b r _ hrow
  | compare htype =>
      have hcomparison := comparison_eq (b.fieldOr "OP" "EQ")
      have htemplate : template? "logic_compare" b r = some (.infixed
          (comparison (b.fieldOr "OP" "EQ")).1 (comparison (b.fieldOr "OP" "EQ")).2) := rfl
      rw [htype, htemplate, hcomparison]
      rfl
  | negated htype => rw [htype]; rfl
  | function htype hop => rw [htype]; rfl
  | reporter hrow => exact template_function b r _ hrow
  | numbered htype => rw [htype]; rfl
  | restricted htype => rw [htype]; rfl
  | reported htype => rw [htype]; rfl
  | leaf hleaf hword => exact hword

/-- A block that stands for a node is rendered as the template of the node says. -/
theorem IsNode.rule {b : Block} {r : Registries} {n : Node} {type : BlockType}
    (h : IsNode b r n) (htype : Catalog.standard.type? b.blockType = some type) :
    type.rule b r = n.template.rule := by
  rw [type?_standard] at htype
  obtain ⟨d, hfind, rfl⟩ := Option.map_eq_some_iff.1 htype
  have htemplate := h.template
  rw [template?, hfind, Option.map_some, Option.some.injEq] at htemplate
  rw [← htemplate]
  rfl

end Standard

end AgentBlocks
