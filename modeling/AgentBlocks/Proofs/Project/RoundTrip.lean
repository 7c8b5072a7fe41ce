import AgentBlocks.Proofs.Project.Codec

/-!
Saved projects are read back as they were, consistent or not.
-/
namespace AgentBlocks

open Json

theorem BreedKind.recovers (kind : BreedKind) : Recovers toJson ofJson? kind := by
  cases kind <;> rfl

theorem Scope.recovers (scope : Scope) : Recovers toJson ofJson? scope := by
  cases scope <;> rfl

theorem Breed.recovers (b : Breed) : Recovers toJson ofJson? b := by
  obtain ⟨plural, singular, kind, builtin⟩ := b
  have hwritten : Breed.toJson ⟨plural, singular, kind, builtin⟩ =
      record (present (["plural", "singular", "kind", "builtin"].zip
        [some (text plural), some (text singular), some kind.toJson,
          if builtin then some (.bool true) else none])) := by
    cases builtin <;> rfl
  have hkind : BreedKind.ofJson? kind.toJson = some kind := kind.recovers
  rw [Recovers, hwritten, Breed.ofJson?, recordMembers?_record (by decide) rfl]
  cases builtin <;> simp [required?, optional?, text, text?, bool?, hkind]

theorem Variable.recovers (v : Variable) : Recovers toJson ofJson? v := by
  obtain ⟨name, scope⟩ := v
  have hwritten : Variable.toJson ⟨name, scope⟩ =
      record (present (["name", "scope"].zip [some (text name), some scope.toJson])) := rfl
  have hscope : Scope.ofJson? scope.toJson = some scope := scope.recovers
  rw [Recovers, hwritten, Variable.ofJson?, recordMembers?_record (by decide) rfl]
  simp [required?, text, text?, hscope]

theorem Snapshot.recovers (s : Snapshot) : Recovers toJson ofJson? s := by
  obtain ⟨breeds, vars⟩ := s
  have hwritten : Snapshot.toJson ⟨breeds, vars⟩ =
      record (present (["breeds", "variables"].zip [some (.array (breeds.map Breed.toJson)),
        some (.array (vars.map Variable.toJson))])) := rfl
  have hbreeds : list? Breed.ofJson? (.array (breeds.map Breed.toJson)) = some breeds :=
    recovers_list fun b _ => b.recovers
  have hvars : list? Variable.ofJson? (.array (vars.map Variable.toJson)) = some vars :=
    recovers_list fun v _ => v.recovers
  rw [Recovers, hwritten, Snapshot.ofJson?, recordMembers?_record (by decide) rfl]
  simp [optional?, hbreeds, hvars]

theorem recovers_coordinate (n : Int64) : Recovers coordinateJson coordinate? n := by
  have hrange := And.intro (Int64.minValue_le_toInt n) (Int64.toInt_le n)
  simp only [Recovers, coordinate?, coordinateJson, integer?, Numeral.integer?_ofInt,
    Option.bind_eq_bind, Option.bind_some, if_pos hrange, Int64.ofInt_toInt]

/-- A finite number whose numeral denotes it. Not every finite number is one: a numeral is read in
two roundings. -/
def Binary64.Exact (v : Binary64) : Prop :=
  v.isFinite = true ∧ (Numeral.ofBinary64 v).binary64? = some v

instance (v : Binary64) : Decidable v.Exact := inferInstanceAs (Decidable (_ ∧ _))

-- The numeral of this one is 0.10000000018846365.
example : ¬Binary64.Exact ⟨false, 0x3FB999999A68D167, by decide⟩ := by decide +kernel

def FieldValue.numbers : FieldValue → List Binary64
  | .number v => [v]
  | _ => []

def Block.numbers (b : Block) : List Binary64 := b.fields.entries.flatMap (·.2.numbers)

def Workspace.numbers (w : Workspace) : List Binary64 := w.blocks.entries.flatMap (·.2.numbers)

theorem FieldValue.recovers {value : FieldValue} (h : ∀ v ∈ value.numbers, v.Exact) :
    Recovers toJson ofJson? value := by
  cases value with
  | bool b => rfl
  | text s => rfl
  | number v =>
      obtain ⟨hfinite, hnumeral⟩ := h v List.mem_cons_self
      simp only [Recovers, toJson, hfinite, if_true, ofJson?, hnumeral, Option.map_some]

theorem Block.recovers {b : Block} (h : ∀ v ∈ b.numbers, v.Exact) :
    Recovers toJson ofJson? b := by
  obtain ⟨blockType, fields, inputs, statements, next, topLevel, x, y⟩ := b
  have hwritten : Block.toJson ⟨blockType, fields, inputs, statements, next, topLevel, x, y⟩ =
      record (present
        (["type", "fields", "inputs", "statements", "next", "topLevel", "x", "y"].zip
          [some (text blockType),
            if fields.isEmpty then none else some (fields.toJson FieldValue.toJson),
            if inputs.isEmpty then none else some (inputs.toJson text),
            if statements.isEmpty then none else some (statements.toJson text),
            next.map text, some (.bool topLevel), x.map coordinateJson,
            y.map coordinateJson])) := by
    simp [Block.toJson, dictMember_eq, optionMember_eq, present]
  have hfields := optional?_dictMember fun e he =>
    FieldValue.recovers (List.forall_mem_flatMap.1 h e he)
  have hinputs := optional?_dictMember (d := inputs) fun e _ => recovers_text e.2
  have hstatements := optional?_dictMember (d := statements) fun e _ => recovers_text e.2
  have hnext := optional?_optionMember (o := next) (fun _ => Json.noConfusion) recovers_text
  have hx := optional?_optionMember (o := x) (fun _ => Json.noConfusion) recovers_coordinate
  have hy := optional?_optionMember (o := y) (fun _ => Json.noConfusion) recovers_coordinate
  rw [Recovers, hwritten, Block.ofJson?, recordMembers?_record (by decide) rfl]
  simp only [Option.bind_eq_bind, Option.bind_some, hfields, hinputs, hstatements, hnext, hx, hy]
  rfl

theorem Workspace.recovers {w : Workspace} (h : ∀ v ∈ w.numbers, v.Exact) :
    Recovers toJson ofJson? w := by
  obtain ⟨blocks⟩ := w
  have hwritten : Workspace.toJson ⟨blocks⟩ =
      record (present (["blocks"].zip [some (blocks.toJson Block.toJson)])) := rfl
  have hblocks : dict? Block.ofJson? (blocks.toJson Block.toJson) = some blocks :=
    recovers_dict fun e he => Block.recovers (List.forall_mem_flatMap.1 h e he)
  rw [Recovers, hwritten, Workspace.ofJson?, recordMembers?_record (by decide) rfl]
  simp [optional?, hblocks]

namespace Project

variable {p : Project}

/-- The numbers in the fields of the blocks. -/
def numbers (p : Project) : List Binary64 := p.workspace.numbers

theorem recovers (h : ∀ v ∈ p.numbers, v.Exact) : Recovers toJson ofJson? p := by
  obtain ⟨registries, workspace⟩ := p
  have hwritten : toJson ⟨registries, workspace⟩ =
      record (present (["registries", "workspace"].zip
        [some registries.toJson, some workspace.toJson])) := rfl
  have hregistries : Snapshot.ofJson? registries.toJson = some registries := registries.recovers
  have hworkspace : Workspace.ofJson? workspace.toJson = some workspace :=
    Workspace.recovers h
  rw [Recovers, hwritten, ofJson?, recordMembers?_record (by decide) rfl]
  simp [optional?, hregistries, hworkspace]

end Project

theorem BreedKind.legible (kind : BreedKind) : kind.toJson.Legible := by
  cases kind <;> exact legible_text _

theorem Scope.legible (scope : Scope) : scope.toJson.Legible := by
  cases scope with
  | global | turtles | patches | links => exact legible_text _
  | breed plural => exact legible_record (List.forall_mem_singleton.2 (legible_text plural))

theorem Breed.legible (b : Breed) : b.toJson.Legible := by
  refine legible_record (List.forall_mem_append.2 ⟨?_, ?_⟩)
  · simp [legible_text, b.kind.legible]
  · split
    · exact List.forall_mem_singleton.2 (.bool true)
    · nofun

theorem Variable.legible (v : Variable) : v.toJson.Legible :=
  legible_record (by simp [legible_text, v.scope.legible])

theorem Snapshot.legible (s : Snapshot) : s.toJson.Legible :=
  legible_record (by simp [legible_list Breed.legible, legible_list Variable.legible])

theorem legible_coordinate (n : Int64) : (coordinateJson n).Legible :=
  .number (Numeral.wellFormed_ofInt n.toInt)

/-- A literal that is not a finite number has a text too: it is null. -/
theorem FieldValue.legible (value : FieldValue) : value.toJson.Legible := by
  cases value with
  | bool b => exact .bool b
  | text s => exact legible_text s
  | number v =>
      rw [toJson]
      split
      · exact .number (Numeral.wellFormed_ofBinary64 v)
      · exact .null

theorem Block.legible (b : Block) : b.toJson.Legible := by
  refine legible_record ?_
  simp only [List.forall_mem_append, List.forall_mem_singleton, and_assoc]
  exact ⟨legible_text b.blockType, legible_dictMember FieldValue.legible "fields" b.fields,
    legible_dictMember legible_text "inputs" b.inputs,
    legible_dictMember legible_text "statements" b.statements,
    legible_optionMember legible_text "next" b.next, .bool b.topLevel,
    legible_optionMember legible_coordinate "x" b.x,
    legible_optionMember legible_coordinate "y" b.y⟩

theorem Workspace.legible (w : Workspace) : w.toJson.Legible :=
  legible_record (List.forall_mem_singleton.2 (legible_dict Block.legible w.blocks))

namespace Project

variable {p : Project}

theorem legible (p : Project) : p.toJson.Legible :=
  legible_record (by simp [p.registries.legible, p.workspace.legible])

/-- A project is read back from its text, provided that the numbers in its fields are finite and
have numerals that denote them. -/
theorem parse_render (hfinite : ∀ v ∈ p.numbers, v.isFinite = true)
    (hnumeral : ∀ v ∈ p.numbers, (Numeral.ofBinary64 v).binary64? = some v) :
    parse p.render = .ok p := by
  have hread : ofJson? p.toJson = some p := recovers fun v hv => ⟨hfinite v hv, hnumeral v hv⟩
  simp only [parse, render, parse?_pretty p.legible, Option.bind_some, hread]

/-- A project with texts that need escapes, a breed that is not declared, and fields that look like
one another. -/
def sketch : Project where
  registries := {
    breeds := [⟨"wolves", "wolf", .turtle, false⟩, ⟨"patches", "", .patch, true⟩]
    vars := [⟨"ticks", .global⟩, ⟨"\"\\", .breed "sheep"⟩] }
  workspace := ⟨.ofList [
    ("\x00", {
      blockType := "set\n\t\x7f"
      fields := .ofList [("A", .number ⟨false, 0x3FB999999999999A, by decide⟩), ("B", .text "0.1"),
        ("C", .bool true), ("D", .text "true"), ("E", .number (.zero true))]
      inputs := .empty
      statements := .ofList [("DO", "\x00")]
      next := some "𝔸"
      topLevel := true
      x := some (-40)
      y := none }),
    ("𝔸", .new "")]⟩

theorem parse_render_sketch :
    (∀ v ∈ sketch.numbers, v.isFinite = true) ∧
      (∀ v ∈ sketch.numbers, (Numeral.ofBinary64 v).binary64? = some v) ∧
      sketch.numbers = [⟨false, 0x3FB999999999999A, by decide⟩, .zero true] ∧
      parse sketch.render = .ok sketch := by
  have hfinite : ∀ v ∈ sketch.numbers, v.isFinite = true := by decide +kernel
  have hnumeral : ∀ v ∈ sketch.numbers, (Numeral.ofBinary64 v).binary64? = some v := by
    decide +kernel
  exact ⟨hfinite, hnumeral, by decide +kernel, parse_render hfinite hnumeral⟩

end Project

end AgentBlocks
