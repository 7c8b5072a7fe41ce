/-!
Text literals of the modelling language. Between its quotes a literal holds no line feed and no
quote that is not escaped.
-/
namespace AgentBlocks.Text

/-- A character inside a literal: backslashes, quotes and line feeds are escaped. -/
def literalChar : Char → List Char
  | '\\' => ['\\', '\\']
  | '"' => ['\\', '"']
  | '\n' => ['\\', 'n']
  | c => [c]

def literal (s : String) : String :=
  String.ofList ('"' :: s.toList.flatMap literalChar ++ ['"'])

end AgentBlocks.Text
