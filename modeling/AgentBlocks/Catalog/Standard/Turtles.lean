import AgentBlocks.Catalog.Standard.AgentSets

/-!
Blocks that move turtles and set their properties.
-/
namespace AgentBlocks.Standard

/-- A command with one argument and the text that stands for it when it is left empty. -/
def movement (name keyword slot default : String) : Design :=
  (Design.command name keyword [slot]).withDefault slot default

def turtleBlocks : List Design :=
  [movement "turtle_forward" "fd" "STEPS" "1",
    movement "turtle_back" "bk" "STEPS" "1",
    movement "turtle_right" "rt" "DEGREES" "90",
    movement "turtle_left" "lt" "DEGREES" "90",
    .command "turtle_setxy" "setxy" ["X", "Y"],
    (Design.statement "agent_set_property" fun b _ =>
      .statement [.text ("set " ++ b.fieldOr "PROP" "color" ++ " "), .value "VALUE" (.upTo .none)])
      |>.withField "PROP" (.fixed agentProperties)]

end AgentBlocks.Standard
