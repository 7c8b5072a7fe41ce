import AgentBlocks.Catalog.Rule
import AgentBlocks.Registry.Basic
import AgentBlocks.Workspace.Basic

/-!
Catalogs of block types. Each type is registered once, with what an editor needs to know about it
and with the rule that renders its blocks. A catalog finds a type by its name and lists all
types in the order in which they were registered.
-/
namespace AgentBlocks

/-- Whether a block is an expression or a statement. -/
inductive ResultKind where
  | value
  | statement
deriving DecidableEq

inductive OutputType where
  | number
  | boolean
  | string
  | agent
  | agentset
  | color
  | any
deriving DecidableEq

def OutputType.name : OutputType → String
  | .number => "Number"
  | .boolean => "Boolean"
  | .string => "String"
  | .agent => "Agent"
  | .agentset => "Agentset"
  | .color => "Color"
  | .any => "Any"

/-- The choices that a field offers: none, a fixed list, or one read from the registries. -/
inductive FieldOptions where
  | free
  | fixed (choices : List String)
  | live (choices : Registries → List String)

namespace FieldOptions

def choices? (r : Registries) : FieldOptions → Option (List String)
  | .free => none
  | .fixed choices => some choices
  | .live choices => some (choices r)

end FieldOptions

structure Field where
  name : String
  options : FieldOptions

/-- A block type. The defaults give the text of value slots that are left empty. -/
structure BlockType where
  name : String
  kind : ResultKind
  output : Option OutputType
  fields : List Field
  defaults : List (String × String)
  rule : Block → Registries → Rule

namespace BlockType

def defaultFor (t : BlockType) (slot : String) : String :=
  match t.defaults.find? (·.1 == slot) with
  | some (_, text) => text
  | none => "0"

/-- What the type yields, in words. -/
def shape (t : BlockType) : String :=
  match t.kind, t.output with
  | .statement, _ => "statement"
  | .value, some output => "value " ++ output.name
  | .value, none => "value"

end BlockType

inductive CatalogError where
  | duplicateBlockType (name : String)
deriving DecidableEq

def CatalogError.message : CatalogError → String
  | .duplicateBlockType name => "Block type '" ++ name ++ "' is already registered."

/-- A catalog: the types under their names, and their names in order of registration. -/
structure Catalog where
  types : Dict BlockType
  order : List String

namespace Catalog

def empty : Catalog := ⟨.empty, []⟩

instance : Inhabited Catalog := ⟨empty⟩

def register (c : Catalog) (t : BlockType) : Except CatalogError Catalog :=
  if c.types.contains t.name then .error (.duplicateBlockType t.name)
  else .ok ⟨c.types.insert t.name t, c.order ++ [t.name]⟩

/-- Registers types one after the other; one whose name is taken is passed over. -/
def registerAll (c : Catalog) (ts : List BlockType) : Catalog :=
  ts.foldl (fun c t => match c.register t with
    | .ok c' => c'
    | .error _ => c) c

def type? (c : Catalog) (name : String) : Option BlockType := c.types.get? name

/-- After types have been registered one after the other, a name that was free belongs to the first
of them that bears it. -/
theorem type?_registerAll (c : Catalog) (ts : List BlockType) (name : String) :
    (c.registerAll ts).type? name = (c.type? name).or (ts.find? (·.name == name)) := by
  induction ts generalizing c with
  | nil => simp [registerAll]
  | cons t ts ih =>
    have hstep : c.registerAll (t :: ts) = (match c.register t with
        | .ok c' => c'
        | .error _ => c).registerAll ts := rfl
    rw [hstep, ih]
    rw [List.find?_cons]
    cases hc : c.types.contains t.name with
    | true =>
      simp only [register, hc, if_true]
      by_cases hn : t.name = name
      · subst hn
        rw [Dict.contains_eq_isSome_get?] at hc
        obtain ⟨t', ht'⟩ := Option.isSome_iff_exists.1 hc
        simp [type?, ht']
      · simp [beq_eq_false_iff_ne.2 hn]
    | false =>
      simp only [register, hc, Bool.false_eq_true, if_false, type?, Dict.get?_insert]
      by_cases hn : t.name = name
      · subst hn
        rw [Dict.contains_eq_isSome_get?, Option.isSome_eq_false_iff, Option.isNone_iff_eq_none]
          at hc
        simp [hc]
      · simp [beq_eq_false_iff_ne.2 hn, hn]

def contains (c : Catalog) (name : String) : Bool := c.types.contains name

def size (c : Catalog) : Nat := c.order.length

def isEmpty (c : Catalog) : Bool := c.order.isEmpty

/-- The choices that a field of a type offers; a free field offers none. -/
def fieldOptions? (c : Catalog) (r : Registries) (type field : String) : Option (List String) := do
  let t ← c.type? type
  let f ← t.fields.find? (·.name == field)
  f.options.choices? r

def padRight (width : Nat) (s : String) : String :=
  s ++ String.ofList (List.replicate (width - s.length) ' ')

def entryLine (name : String) (t : BlockType) : String := padRight 28 name ++ " " ++ t.shape ++ "\n"

/-- The listing: a line for each type, in order of registration. -/
def listing (c : Catalog) : String :=
  String.join (c.order.filterMap fun name => (c.type? name).map (entryLine name))

end Catalog

end AgentBlocks
