import AgentBlocks.Catalog.Wording
import AgentBlocks.Text.Literal

/-!
Blocks that stand for a literal.
-/
namespace AgentBlocks.Standard

def colors : List String :=
  ["black", "gray", "white", "red", "orange", "brown", "yellow", "green", "lime", "turquoise",
    "cyan", "sky", "blue", "violet", "magenta", "pink"]

def literalBlocks : List Design :=
  [(Design.value "math_number" .number fun b _ =>
      .word (((b.field? "NUM").bind (·.number?)).getD (.zero false)).display)
      |>.withField "NUM" .free,
    (Design.value "text" .string fun b _ => .word (Text.literal ((b.fieldText? "TEXT").getD "")))
      |>.withField "TEXT" .free,
    (Design.value "logic_boolean" .boolean fun b _ =>
      .word (FieldValue.bool (((b.field? "BOOL").bind (·.bool?)).getD false)).display)
      |>.withField "BOOL" (.fixed ["true", "false"]),
    (Design.value "color_constant" .color fun b _ => .word (b.fieldOr "COLOR" "black"))
      |>.withField "COLOR" (.fixed colors),
    .keywordValue "observer_ticks" .number "ticks"]

end AgentBlocks.Standard
