import AgentBlocks.Catalog.Basic
import AgentBlocks.Catalog.Template

/-!
Designs of block types whose text is a template. What the template is may depend on the fields of
the block, on which of its slots are filled, and on the registries.
-/
namespace AgentBlocks

structure Design where
  name : String
  kind : ResultKind
  output : Option OutputType
  fields : List Field
  defaults : List (String × String)
  template : Block → Registries → Template

namespace Design

def value (name : String) (output : OutputType) (template : Block → Registries → Template) :
    Design :=
  ⟨name, .value, some output, [], [], template⟩

def statement (name : String) (template : Block → Registries → Template) : Design :=
  ⟨name, .statement, none, [], [], template⟩

def withField (d : Design) (name : String) (options : FieldOptions) : Design :=
  { d with fields := d.fields ++ [⟨name, options⟩] }

/-- The design with the text of a slot that is left empty. -/
def withDefault (d : Design) (slot text : String) : Design :=
  { d with defaults := d.defaults ++ [(slot, text)] }

def blockType (d : Design) : BlockType :=
  ⟨d.name, d.kind, d.output, d.fields, d.defaults, fun b r => (d.template b r).rule⟩

end Design

/-- A part of the text of a block, for types beside the standard ones. -/
inductive Part where
  | text (s : String)
  | value (slot : String) (bound : Bound)
  | statements (slot : String)
  | isFilled (slot : String)
  | default (slot : String)
  | field (name : String)
  | agentSets

namespace Part

/-- The piece that a part contributes to a block of the given type. -/
def piece (t : BlockType) (b : Block) (r : Registries) : Part → Piece
  | .text s => .text s
  | .value slot bound => .value slot bound
  | .statements slot => .body slot .plain
  | .isFilled slot => .text (if b.hasInput slot then "true" else "false")
  | .default slot => .text (t.defaultFor slot)
  | .field name => .text ((b.fieldText? name).getD "")
  | .agentSets => .text (",".intercalate r.agentSets)

end Part

/-- The design whose text is made of parts: an expression of the given class, or without one a
statement. -/
def Design.withParts (d : Design) (parts : List Part) (precedence : Option Precedence) : Design :=
  { d with template := fun b r => ⟨parts.map (Part.piece d.blockType b r), precedence⟩ }

end AgentBlocks
