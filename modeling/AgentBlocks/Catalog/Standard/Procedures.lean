import AgentBlocks.Catalog.Wording

/-!
Blocks that define and call procedures. The chain of a procedure is plugged into the slot `STACK`.
-/
namespace AgentBlocks.Standard

/-- The definition of a procedure: its head, its chain on lines of its own, and `end`. -/
def definition (name keyword : String) : Design :=
  (Design.statement name fun b _ =>
    .statement [.text (keyword ++ " " ++ b.nameOr "NAME" "setup"), .body "STACK" .ownLines,
      .text "\nend"])
    |>.withField "NAME" .free

def procedureBlocks : List Design :=
  [definition "procedure_define" "to",
    definition "procedure_define_reporter" "to-report",
    .command "procedure_report" "report" ["VALUE"],
    (Design.statement "procedure_call" fun b _ => .statement [.text (b.nameOr "NAME" "setup")])
      |>.withField "NAME" .free,
    (Design.value "procedure_call_reporter" .any fun b _ => .word (b.nameOr "NAME" "0"))
      |>.withField "NAME" .free]

end AgentBlocks.Standard
