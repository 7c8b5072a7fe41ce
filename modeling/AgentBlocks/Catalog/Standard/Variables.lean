import AgentBlocks.Catalog.Wording

/-!
Blocks that read and set declared variables and local ones.
-/
namespace AgentBlocks.Standard

def variableChoices (r : Registries) : List String := r.vars.map (·.name)

/-- The variable that a statement sets. -/
def assigned (b : Block) (r : Registries) : String := r.spellingOf (b.fieldOr "VAR" "x")

def variableBlocks : List Design :=
  [(Design.value "variable_get" .any fun b r => .word (r.spellingOf (b.fieldOr "VAR" "0")))
      |>.withField "VAR" (.live variableChoices),
    (Design.statement "variable_set" fun b r =>
      .statement [.text ("set " ++ assigned b r ++ " "), .value "VALUE" (.upTo .none)])
      |>.withField "VAR" (.live variableChoices),
    (Design.statement "variable_change" fun b r =>
      .statement [.text ("set " ++ assigned b r ++ " " ++ assigned b r ++ " + "),
        .value "DELTA" (.below .additive)])
      |>.withField "VAR" (.live variableChoices) |>.withDefault "DELTA" "1",
    (Design.statement "variable_let" fun b _ =>
      .statement [.text ("let " ++ b.nameOr "NAME" "temp" ++ " "), .value "VALUE" (.upTo .none)])
      |>.withField "NAME" .free,
    (Design.value "variable_local" .any fun b _ => .word (b.nameOr "NAME" "temp"))
      |>.withField "NAME" .free]

end AgentBlocks.Standard
