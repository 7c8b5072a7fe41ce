import AgentBlocks.Catalog.Wording

/-!
Blocks that stand for agents, for sets of agents and for properties of agents.
-/
namespace AgentBlocks.Standard

def agentProperties : List String :=
  ["who", "xcor", "ycor", "heading", "color", "size", "label", "shape", "hidden?", "pxcor",
    "pycor", "pcolor", "plabel"]

def singularTurtleChoices (r : Registries) : List String :=
  "turtle" :: r.turtleBreeds.map (·.singular)

/-- A reporter on a set of agents, all turtles unless another one is plugged in. -/
def agentReporter (name keyword : String) (output : OutputType) : Design :=
  (Design.reporter name keyword ["AGENTS"] output).withDefault "AGENTS" "turtles"

def agentSetBlocks : List Design :=
  [(Design.value "agentset_breed" .agentset fun b r =>
      .word (r.pluralOf (b.fieldOr "BREED" "turtles")))
      |>.withField "BREED" (.live Registries.agentSets),
    (Design.value "agentset_with" .agentset fun _ _ =>
      .expression .functionCall
        [.value "AGENTS" (.upTo .atomic), .text " with [", .value "CONDITION" (.upTo .none),
          .text "]"])
      |>.withDefault "AGENTS" "turtles" |>.withDefault "CONDITION" "true",
    (Design.value "agent_of" .any fun _ _ =>
      .expression .functionCall
        [.text "[", .value "REPORTER" (.upTo .none), .text "] of ",
          .value "AGENTS" (.upTo .atomic)])
      |>.withDefault "REPORTER" "who" |>.withDefault "AGENTS" "turtles",
    agentReporter "agentset_count" "count" .number,
    agentReporter "agentset_any" "any?" .boolean,
    agentReporter "agentset_one_of" "one-of" .agent,
    agentReporter "agentset_other" "other" .agentset,
    (Design.value "agent_numbered" .agent fun b r =>
      .call (r.singularOf (b.fieldOr "BREED" "turtle")) ["WHO"])
      |>.withField "BREED" (.live singularTurtleChoices) |>.withDefault "WHO" "0",
    .keywordValue "agent_self" .agent "self",
    .keywordValue "agent_myself" .agent "myself",
    .keywordValue "agent_nobody" .agent "nobody",
    (Design.value "agent_property" .any fun b _ => .word (b.fieldOr "PROP" "who"))
      |>.withField "PROP" (.fixed agentProperties)]

end AgentBlocks.Standard
