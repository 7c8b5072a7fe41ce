import AgentBlocks.Catalog.Wording

/-!
Blocks that steer the run of a program. A chain of commands is plugged into the slot `DO`, the
chain of the second branch into `ELSE`.
-/
namespace AgentBlocks.Standard

/-- A statement with one argument and one chain in brackets. -/
def looping (name before slot after default : String) : Design :=
  (Design.statement name fun _ _ =>
    .statement [.text before, .value slot (.upTo .none), .text after, .body "DO" .bracketed])
    |>.withDefault slot default

def controlBlocks : List Design :=
  [looping "control_if" "if " "CONDITION" " " "false",
    (Design.statement "control_ifelse" fun _ _ =>
      .statement [.text "ifelse ", .value "CONDITION" (.upTo .none), .text " ",
        .body "DO" .bracketed, .text " ", .body "ELSE" .bracketed])
      |>.withDefault "CONDITION" "false",
    looping "control_repeat" "repeat " "TIMES" " " "10",
    looping "control_while" "while [" "CONDITION" "] " "false",
    .keywordStatement "control_stop" "stop",
    .keywordStatement "observer_clear_all" "clear-all",
    .keywordStatement "observer_reset_ticks" "reset-ticks",
    .keywordStatement "observer_tick" "tick",
    (Design.command "output_show" "show" ["VALUE"]).withDefault "VALUE" "\"\"",
    (Design.command "output_print" "print" ["VALUE"]).withDefault "VALUE" "\"\""]

end AgentBlocks.Standard
