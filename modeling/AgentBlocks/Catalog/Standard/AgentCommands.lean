import AgentBlocks.Catalog.Wording

/-!
Blocks that create agents and give them commands.
-/
namespace AgentBlocks.Standard

def linkDirections : List String := ["with", "to", "from"]

def turtleBreedChoices (r : Registries) : List String :=
  "turtles" :: r.turtleBreeds.map (·.plural)

def linkBreedChoices (r : Registries) : List String := "link" :: r.linkBreeds.map (·.singular)

/-- The direction of a link of a breed. Directed links go to or from their other end, all other
known breeds are linked with it, and an unknown breed takes the direction that was asked for. -/
def linkDirection (r : Registries) (breed requested : String) : String :=
  match r.findBreed? breed with
  | some b =>
    if b.kind = .directedLink then (if requested = "from" then "from" else "to") else "with"
  | none => if requested = "to" ∨ requested = "from" then requested else "with"

/-- A command that makes agents of a breed: a verb with the breed, a count, and the chain that the
new agents run. With `bareTurtles` the verb stands alone for turtles. -/
def creation (name verb : String) (bareTurtles : Bool) : Design :=
  (Design.statement name fun b r =>
    let breed := r.pluralOf (b.fieldOr "BREED" "turtles")
    let keyword := if bareTurtles && breed == "turtles" then verb else verb ++ "-" ++ breed
    .statement [.text (keyword ++ " "), .value "COUNT" (.upTo .functionCall),
      .body "DO" .optional])
    |>.withField "BREED" (.live turtleBreedChoices) |>.withDefault "COUNT" "1"

def agentCommandBlocks : List Design :=
  [(Design.statement "agent_ask" fun _ _ =>
      .statement [.text "ask ", .value "AGENTS" (.upTo .functionCall), .text " ",
        .body "DO" .bracketed])
      |>.withDefault "AGENTS" "turtles",
    creation "agent_create" "create" false,
    creation "agent_sprout" "sprout" true,
    creation "agent_hatch" "hatch" true,
    (Design.statement "agent_create_link" fun b r =>
      let breed := r.singularOf (b.fieldOr "BREED" "link")
      let direction := linkDirection r breed (b.fieldOr "DIRECTION" "with")
      .statement [.text ("create-" ++ breed ++ "-" ++ direction ++ " "),
        .value "TARGET" (.upTo .functionCall), .body "DO" .optional])
      |>.withField "BREED" (.live linkBreedChoices)
      |>.withField "DIRECTION" (.fixed linkDirections)
      |>.withDefault "TARGET" "nobody",
    .keywordStatement "agent_die" "die"]

end AgentBlocks.Standard
