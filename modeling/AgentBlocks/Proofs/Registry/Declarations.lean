import AgentBlocks.Proofs.Registry.Persistence
import AgentBlocks.Proofs.Text.Words
import AgentBlocks.Registry.Declarations
import Mathlib.Data.List.Induction

/-!
The declarations at the head of a program, read back from their text. Its lines and words give
every global variable, every declared breed and every owner with its variables, each once and in
the order of the registries.
-/
namespace AgentBlocks

open Text

/-- A line of declarations. -/
inductive Declaration where
  | globals (names : List String)
  | breed (kind : BreedKind) (plural singular : String)
  | own (owner : String) (names : List String)
deriving DecidableEq

namespace Declaration

/-- The names that a line declares or gives to its owner. -/
def names : Declaration → List String
  | .globals names => names
  | .breed _ plural singular => [plural, singular]
  | .own _ names => names

/-- The kinds of breeds that are declared, each under a keyword of its own. -/
def kinds : List BreedKind := [.turtle, .undirectedLink, .directedLink]

/-- The first word of the line for a breed. -/
def keyword : BreedKind → String
  | .turtle | .patch => "breed"
  | .undirectedLink => "undirected-link-breed"
  | .directedLink => "directed-link-breed"

def kind? (word : String) : Option BreedKind := kinds.find? fun kind => keyword kind == word

/-- The word for the agents that have a variable of a scope; a global variable has none. -/
def holder : Scope → Option String
  | .global => none
  | .turtles => some "turtles"
  | .patches => some "patches"
  | .links => some "links"
  | .breed plural => some plural

/-- The words between two brackets. -/
def bracketed? : List String → Option (List String)
  | "[" :: rest => if rest.getLast? = some "]" then some rest.dropLast else none
  | _ => none

/-- The owner in a word such as `turtles-own`. -/
def owner? (word : String) : Option String :=
  ("-own".toList.isSuffixOf? word.toList).map String.ofList

def ofWords? : List String → Option Declaration
  | [] => none
  | word :: rest => do
    let names ← bracketed? rest
    if word = "globals" then some (.globals names)
    else match kind? word, names with
      | some kind, [plural, singular] => some (.breed kind plural singular)
      | some _, _ => none
      | none, _ => (owner? word).map (.own · names)

/-- The declarations in a text, line by line. -/
def read? (text : String) : Option (List Declaration) :=
  (filledLines text).mapM fun line => ofWords? (Text.words line)

/-- The first word of a line. -/
def head : Declaration → String
  | .globals _ => "globals"
  | .breed kind _ _ => keyword kind
  | .own owner _ => owner ++ "-own"

def words (d : Declaration) : List String := d.head :: "[" :: (d.names ++ ["]"])

def line (d : Declaration) : String := " ".intercalate d.words

/-- A word that is not cut. -/
def Uncut (word : String) : Prop := ' ' ∉ word.toList ∧ '\n' ∉ word.toList

instance (word : String) : Decidable (Uncut word) := inferInstanceAs (Decidable (_ ∧ _))

/-- A line that can be read: a breed is of a kind that is declared, and no word is cut. -/
structure Legible (d : Declaration) : Prop where
  kind : ∀ kind plural singular, d = .breed kind plural singular → kind ∈ kinds
  words : ∀ word ∈ d.words, Uncut word

theorem bracketed?_names (names : List String) :
    bracketed? ("[" :: (names ++ ["]"])) = some names := by
  simp [bracketed?]

theorem owner?_append (owner : String) : owner? (owner ++ "-own") = some owner := by
  have hsuffix : "-own".toList.isSuffixOf? (owner ++ "-own").toList = some owner.toList :=
    List.isSuffixOf?_eq_some_iff_append_eq.2 String.toList_append.symm
  rw [owner?, hsuffix, Option.map_some, String.ofList_toList]

theorem mem_kinds {kind : BreedKind} (h : kind ≠ .patch) : kind ∈ kinds := by
  cases kind with
  | patch => exact absurd rfl h
  | turtle | undirectedLink | directedLink => decide

theorem owner?_keyword {kind : BreedKind} (h : kind ∈ kinds) : owner? (keyword kind) = none := by
  revert kind
  decide

theorem kind?_keyword {kind : BreedKind} (h : kind ∈ kinds) :
    keyword kind ≠ "globals" ∧ kind? (keyword kind) = some kind := by
  revert kind
  decide

/-- The line of an owner begins with no word that begins another line. -/
theorem kind?_append (owner : String) :
    owner ++ "-own" ≠ "globals" ∧ kind? (owner ++ "-own") = none := by
  refine ⟨fun heq => ?_, List.find?_eq_none.2 fun kind hkind heq => ?_⟩
  · have hnone : owner? "globals" = none := by decide
    rw [← heq, owner?_append] at hnone
    cases hnone
  · have hnone := owner?_keyword hkind
    rw [beq_iff_eq.1 heq, owner?_append] at hnone
    cases hnone

theorem ofWords?_words {d : Declaration} (h : d.Legible) : ofWords? d.words = some d := by
  cases d with
  | globals names => simp [ofWords?, words, head, Declaration.names, bracketed?_names]
  | breed kind plural singular =>
      obtain ⟨hglobals, hkind⟩ := kind?_keyword (h.kind _ _ _ rfl)
      have hnames : bracketed? ["[", plural, singular, "]"] = some [plural, singular] :=
        bracketed?_names [plural, singular]
      simp [ofWords?, words, head, Declaration.names, hnames, hglobals, hkind]
  | own owner names =>
      obtain ⟨hglobals, hkind⟩ := kind?_append owner
      simp [ofWords?, words, head, Declaration.names, bracketed?_names, hglobals, hkind,
        owner?_append]

theorem words_line {d : Declaration} (h : d.Legible) : Text.words d.line = d.words :=
  words_intercalate (List.cons_ne_nil _ _) fun word hword => (h.words word hword).1

theorem uncut_words {d : Declaration} (hhead : Uncut d.head)
    (hnames : ∀ name ∈ d.names, Uncut name) :
    ∀ word ∈ d.words, Uncut word := by
  intro word hword
  simp only [words, List.mem_cons, List.mem_append, List.not_mem_nil, or_false] at hword
  rcases hword with rfl | rfl | hword | rfl
  · exact hhead
  · decide
  · exact hnames word hword
  · decide

theorem legible_globals {names : List String} (h : ∀ name ∈ names, Uncut name) :
    Legible (.globals names) :=
  ⟨nofun, uncut_words (show Uncut "globals" by decide) h⟩

theorem legible_breed {kind : BreedKind} {plural singular : String} (hkind : kind ∈ kinds)
    (hplural : Uncut plural) (hsingular : Uncut singular) :
    Legible (.breed kind plural singular) := by
  have huncut : ∀ kind ∈ kinds, Uncut (keyword kind) := by decide
  refine ⟨?_, uncut_words (huncut kind hkind) fun name hname => ?_⟩
  · rintro _ _ _ ⟨⟩
    exact hkind
  · rcases List.mem_pair.1 hname with rfl | rfl
    · exact hplural
    · exact hsingular

theorem legible_own {owner : String} {names : List String} (howner : Uncut owner)
    (h : ∀ name ∈ names, Uncut name) : Legible (.own owner names) := by
  refine ⟨nofun, uncut_words ?_ h⟩
  unfold Uncut at howner ⊢
  simpa [head] using howner

theorem filledLines_line {d : Declaration} (h : d.Legible) : filledLines d.line = [d.line] := by
  have hfeed : '\n' ∉ d.line.toList :=
    not_mem_intercalate (by decide) fun word hword => (h.words word hword).2
  refine filledLines_of_not_mem hfeed fun hempty => ?_
  have hwords := words_line h
  rw [hempty] at hwords
  have hlength := congrArg List.length hwords
  simp [Text.words, words] at hlength

theorem filledLines_section {ds : List Declaration} (h : ∀ d ∈ ds, d.Legible) :
    filledLines ("\n".intercalate (ds.map line)) = ds.map line := by
  rw [filledLines_intercalate_feed, List.flatMap_map, List.map_eq_flatMap]
  exact List.flatMap_congr fun d hd => filledLines_line (h d hd)

theorem filledLines_sections {sections : List (List Declaration)}
    (h : ∀ ds ∈ sections, ∀ d ∈ ds, d.Legible) :
    filledLines ("\n\n".intercalate (sections.map fun ds => "\n".intercalate (ds.map line))) =
      sections.flatten.map line := by
  rw [filledLines_intercalate_blankLine, List.flatMap_map, List.map_flatten, ← List.flatMap_def]
  exact List.flatMap_congr fun ds hds => filledLines_section (h ds hds)

/-- Declarations are read back from their text, line by line. -/
theorem read?_of_filledLines {ds : List Declaration} {text : String} (h : ∀ d ∈ ds, d.Legible)
    (hlines : filledLines text = ds.map line) : read? text = some ds := by
  rw [read?, hlines]
  refine mapM_map_eq_some fun d hd => ?_
  rw [words_line (h d hd), ofWords?_words (h d hd)]

end Declaration

theorem nodup_eraseDups (l : List String) : l.eraseDups.Nodup := by
  cases l with
  | nil => exact .nil
  | cons a rest =>
      rw [List.eraseDups_cons]
      exact List.nodup_cons.2 ⟨by simp [List.mem_eraseDups], nodup_eraseDups _⟩
termination_by l.length
decreasing_by exact Nat.lt_succ_of_le (List.length_filter_le _ rest)

namespace Registries

variable {r : Registries}

/-- The owners of some variables, each where its first variable stands. -/
def variableOwners (vars : List Variable) : List String :=
  (vars.filterMap (Declaration.holder ·.scope)).eraseDups

/-- The names of the variables that an owner has. -/
def ownedBy (vars : List Variable) (owner : String) : List String :=
  (vars.filter (Declaration.holder ·.scope == some owner)).map (·.name)

/-- The names of the global variables. -/
def unowned (vars : List Variable) : List String := (vars.filter (·.scope == .global)).map (·.name)

/-- The line of the global variables, if there are any. -/
def globalLines (r : Registries) : List Declaration :=
  if unowned r.vars = [] then [] else [.globals (unowned r.vars)]

/-- A line for each breed that is not built in. -/
def breedLines (r : Registries) : List Declaration :=
  (r.breeds.filter (!·.builtin)).map fun b => .breed b.kind b.plural b.singular

/-- A line for each owner. -/
def ownLines (r : Registries) : List Declaration :=
  (variableOwners r.vars).map fun owner => .own owner (ownedBy r.vars owner)

/-- The lines that declare all that the registries hold. -/
def declared (r : Registries) : List Declaration := r.globalLines ++ r.breedLines ++ r.ownLines

theorem declarationKeyword_eq (kind : BreedKind) :
    kind.declarationKeyword = Declaration.keyword kind := by
  cases kind <;> rfl

theorem owner_eq_holder (scope : Scope) : scope.owner = Declaration.holder scope := by
  cases scope <;> rfl

theorem globalVariables_eq (r : Registries) : r.globalVariables = unowned r.vars := rfl

theorem breedLines_eq (r : Registries) :
    r.breedLines = r.customBreeds.map fun b => .breed b.kind b.plural b.singular := rfl

/-- A variable joins the list of its owner, which comes last when it is new. -/
theorem addOwned_map {os : List String} (hnodup : os.Nodup) {owner : String}
    {lists : String → List String} (hnew : owner ∉ os → lists owner = []) (name : String) :
    addOwned owner name (os.map fun o => (o, lists o)) =
      (if owner ∈ os then os else os ++ [owner]).map fun o =>
        (o, lists o ++ if o = owner then [name] else []) := by
  induction os with
  | nil => simp [addOwned, hnew]
  | cons o rest ih =>
      obtain ⟨ho, hrest⟩ := List.nodup_cons.1 hnodup
      rw [List.map_cons, addOwned]
      by_cases hsame : o = owner
      · subst hsame
        have hothers : ∀ o' ∈ rest, (o', lists o') =
            (o', lists o' ++ if o' = o then [name] else []) := by
          intro o' ho'
          have hne : o' ≠ o := fun heq => ho (heq ▸ ho')
          simp [hne]
        simp [List.map_congr_left hothers]
      · have hmem : owner ∈ o :: rest ↔ owner ∈ rest := by simp [Ne.symm hsame]
        rw [if_neg hsame, ih hrest fun hnot => hnew (mt hmem.1 hnot)]
        simp only [hmem]
        split <;> simp [hsame]

theorem mem_variableOwners {vars : List Variable} {owner : String} :
    owner ∈ variableOwners vars ↔ ∃ v ∈ vars, Declaration.holder v.scope = some owner := by
  rw [variableOwners, List.mem_eraseDups, List.mem_filterMap]

theorem nodup_owners (vars : List Variable) : (variableOwners vars).Nodup := nodup_eraseDups _

theorem ownedBy_concat (vars : List Variable) (v : Variable) (owner : String) :
    ownedBy (vars ++ [v]) owner =
      ownedBy vars owner ++ if Declaration.holder v.scope = some owner then [v.name] else [] := by
  by_cases h : Declaration.holder v.scope = some owner <;> simp [ownedBy, h]

theorem owners_concat (vars : List Variable) (v : Variable) :
    variableOwners (vars ++ [v]) = match Declaration.holder v.scope with
      | none => variableOwners vars
      | some owner =>
        if owner ∈ variableOwners vars then variableOwners vars
        else variableOwners vars ++ [owner] := by
  unfold variableOwners
  rw [List.filterMap_append, List.eraseDups_append]
  cases howner : Declaration.holder v.scope with
  | none => simp [howner]
  | some owner =>
      simp only [List.filterMap_cons, howner, List.filterMap_nil, List.mem_eraseDups]
      by_cases hmem : owner ∈ vars.filterMap (Declaration.holder ·.scope)
      · rw [if_pos hmem, List.cons_removeAll, if_neg (by simpa using hmem)]
        simp
      · rw [if_neg hmem, List.cons_removeAll, if_pos (by simpa using hmem)]
        simp [List.eraseDups_cons]

theorem ownedBy_eq_nil {vars : List Variable} {owner : String} (h : owner ∉ variableOwners vars) :
    ownedBy vars owner = [] := by
  rw [ownedBy, List.map_eq_nil_iff, List.filter_eq_nil_iff]
  intro v hv howner
  exact h (mem_variableOwners.2 ⟨v, hv, by simpa using howner⟩)

theorem ownedVariables_eq (r : Registries) :
    r.ownedVariables = (variableOwners r.vars).map fun owner => (owner, ownedBy r.vars owner) := by
  simp only [ownedVariables, owner_eq_holder]
  induction r.vars using List.reverseRecOn with
  | nil => rfl
  | append_singleton vars v ih =>
      rw [List.foldl_append, ih, List.foldl_cons, List.foldl_nil, owners_concat]
      cases howner : Declaration.holder v.scope with
      | none => simp [ownedBy_concat, howner]
      | some owner =>
          simp only [ownedBy_concat, howner]
          rw [addOwned_map (nodup_owners vars) ownedBy_eq_nil]
          simp [eq_comm]

theorem bracketedNames_eq {names : List String} (hne : names ≠ []) :
    bracketedNames names = " ".intercalate ("[" :: (names ++ ["]"])) := by
  rw [String.intercalate_cons_of_ne_nil (by simp),
    String.intercalate_append_of_ne_nil hne (by simp), String.intercalate_singleton]
  simp [bracketedNames, ← String.toList_inj]

/-- A line of declarations is its first word and the bracketed names. -/
theorem line_eq {d : Declaration} (hne : d.names ≠ []) :
    d.line = d.head ++ " " ++ bracketedNames d.names := by
  rw [Declaration.line, Declaration.words, String.intercalate_cons_cons, bracketedNames_eq hne]

theorem ownedBy_ne_nil {vars : List Variable} {owner : String} (h : owner ∈ variableOwners vars) :
    ownedBy vars owner ≠ [] := by
  obtain ⟨v, hv, howner⟩ := mem_variableOwners.1 h
  refine List.ne_nil_of_mem (a := v.name) (List.mem_map_of_mem (List.mem_filter.2 ⟨hv, ?_⟩))
  simp [howner]

/-- The text of some lines, unless there are none. -/
def sections (ds : List Declaration) : List String :=
  if ds.isEmpty then [] else ["\n".intercalate (ds.map Declaration.line)]

theorem sections_eq (ds : List Declaration) :
    sections ds = ([ds].filter (!·.isEmpty)).map
      fun ds => "\n".intercalate (ds.map Declaration.line) := by
  cases ds with
  | nil => rfl
  | cons d rest => simp [sections]

theorem sections_globalLines (r : Registries) : sections r.globalLines =
    if r.globalVariables.isEmpty then [] else
      ["globals " ++ bracketedNames r.globalVariables] := by
  rw [globalVariables_eq]
  unfold globalLines
  split
  · rename_i hempty
    rw [hempty]
    rfl
  · rename_i hne
    simp [sections, line_eq (d := .globals (unowned r.vars)) hne, Declaration.head,
      Declaration.names, hne]

theorem line_breed (b : Breed) :
    (Declaration.breed b.kind b.plural b.singular).line = breedLine b := by
  have hnames : (Declaration.breed b.kind b.plural b.singular).names ≠ [] := List.cons_ne_nil _ _
  rw [line_eq hnames, breedLine, declarationKeyword_eq]
  rfl

theorem sections_breedLines (r : Registries) : sections r.breedLines =
    if r.customBreeds.isEmpty then [] else ["\n".intercalate (r.customBreeds.map breedLine)] := by
  have hlines : r.breedLines.map Declaration.line = r.customBreeds.map breedLine := by
    rw [breedLines_eq, List.map_map]
    exact List.map_congr_left fun b _ => line_breed b
  rw [sections, hlines, breedLines_eq, List.isEmpty_map]

theorem sections_ownLines (r : Registries) : sections r.ownLines =
    if r.ownedVariables.isEmpty then [] else
      ["\n".intercalate (r.ownedVariables.map fun o => ownLine o.1 o.2)] := by
  have hlines : r.ownLines.map Declaration.line =
      r.ownedVariables.map fun o => ownLine o.1 o.2 := by
    rw [ownLines, ownedVariables_eq, List.map_map, List.map_map]
    refine List.map_congr_left fun owner howner => ?_
    have hhead : owner ++ "-own " = owner ++ "-own" ++ " " := by
      rw [String.append_assoc]
      rfl
    have hline := line_eq (d := .own owner (ownedBy r.vars owner)) (ownedBy_ne_nil howner)
    rw [Function.comp_apply, Function.comp_apply, hline, ownLine, hhead]
    rfl
  rw [sections, hlines, ownLines, ownedVariables_eq, List.isEmpty_map, List.isEmpty_map]

/-- The sections of the text are the lines of each kind, where there are any. -/
theorem declarations_eq (r : Registries) :
    r.declarations = ([r.globalLines, r.breedLines, r.ownLines].filter (!·.isEmpty)).map
      fun ds => "\n".intercalate (ds.map Declaration.line) := by
  have hsplit : [r.globalLines, r.breedLines, r.ownLines] =
      [r.globalLines] ++ [r.breedLines] ++ [r.ownLines] := rfl
  rw [hsplit, List.filter_append, List.filter_append, List.map_append, List.map_append,
    ← sections_eq, ← sections_eq, ← sections_eq, sections_globalLines, sections_breedLines,
    sections_ownLines]
  rfl

theorem filledLines_declarations (h : ∀ d ∈ r.declared, d.Legible) :
    filledLines ("\n\n".intercalate r.declarations) = r.declared.map Declaration.line := by
  rw [declarations_eq, Declaration.filledLines_sections, List.flatten_filter_not_isEmpty]
  · simp [declared]
  · intro ds hds d hd
    refine h d ?_
    have hmem := (List.mem_filter.1 hds).1
    simp only [List.mem_cons, List.not_mem_nil, or_false] at hmem
    rw [declared, List.mem_append, List.mem_append]
    rcases hmem with rfl | rfl | rfl
    · exact .inl (.inl hd)
    · exact .inl (.inr hd)
    · exact .inr hd

/-- The text of the declarations is read back, when its lines can be. -/
theorem read?_declarations (h : ∀ d ∈ r.declared, d.Legible) :
    Declaration.read? ("\n\n".intercalate r.declarations) = some r.declared :=
  Declaration.read?_of_filledLines h (filledLines_declarations h)

end Registries

theorem Usable.isNamePart {name : String} (h : Usable name) {c : Char} (hc : c ∈ name.toList) :
    isNamePart c = true := by
  have hvalid := h.1
  unfold isValidName at hvalid
  cases hchars : name.toList with
  | nil => simp [hchars] at hc
  | cons first rest =>
      rw [hchars, isValidNameChars, Bool.and_eq_true, List.all_eq_true] at hvalid
      rw [hchars] at hc
      rcases List.mem_cons.1 hc with rfl | hc
      · simp [AgentBlocks.isNamePart, hvalid.1]
      · exact hvalid.2 c hc

theorem Usable.uncut {name : String} (h : Usable name) : Declaration.Uncut name := by
  refine ⟨fun hblank => ?_, fun hfeed => ?_⟩
  · exact absurd (h.isNamePart hblank) (by decide)
  · exact absurd (h.isNamePart hfeed) (by decide)

namespace Registries

variable {r : Registries}

/-- The owner of a variable is a built-in set of agents or a declared breed. -/
theorem Coherent.mem_owners (hr : r.Coherent) {owner : String}
    (h : owner ∈ variableOwners r.vars) :
    owner ∈ ["turtles", "patches", "links"] ∨ ∃ b ∈ r.customBreeds, b.plural = owner := by
  obtain ⟨v, hv, howner⟩ := mem_variableOwners.1 h
  cases hscope : v.scope with
  | global => simp [hscope, Declaration.holder] at howner
  | breed plural =>
      rw [hscope] at howner
      cases howner
      exact .inr (hr.owners v hv _ hscope)
  | turtles | patches | links =>
      rw [hscope] at howner
      cases howner
      exact .inl (by decide)

theorem Coherent.owners_subset (hr : r.Coherent) : variableOwners r.vars ⊆ r.agentSets := by
  intro owner howner
  have hbuiltin : ["turtles", "patches", "links"] = builtinBreeds.map (·.plural) := rfl
  rw [agentSets, hr.builtins, List.map_append, List.mem_append, ← hbuiltin, List.mem_map]
  exact hr.mem_owners howner

/-- No two owners are the same name in different cases. -/
theorem Coherent.nodup_fold_owners (hr : r.Coherent) :
    ((variableOwners r.vars).map fold).Nodup := by
  have hplurals : (r.agentSets.map fold).Nodup :=
    hr.distinct.sublist ((plurals_sublist r.breeds r.vars).map fold)
  refine (nodup_owners r.vars).map_on fun a ha b hb hfold => ?_
  exact List.inj_on_of_nodup_map hplurals (hr.owners_subset ha) (hr.owners_subset hb) hfold

theorem Coherent.uncut_owner (hr : r.Coherent) {owner : String}
    (h : owner ∈ variableOwners r.vars) : Declaration.Uncut owner := by
  have hbuiltin : ∀ word ∈ ["turtles", "patches", "links"], Declaration.Uncut word := by decide
  rcases hr.mem_owners h with h | ⟨b, hb, rfl⟩
  · exact hbuiltin owner h
  · exact (hr.breeds b hb).plural.uncut

/-- The lines that coherent registries declare can be read. -/
theorem Coherent.legible_declared (hr : r.Coherent) : ∀ d ∈ r.declared, d.Legible := by
  have hvars : ∀ name ∈ r.vars.map (·.name), Declaration.Uncut name := by
    intro name hname
    obtain ⟨v, hv, rfl⟩ := List.mem_map.1 hname
    exact (hr.vars v hv).uncut
  have hsome : ∀ p : Variable → Bool, ∀ name ∈ (r.vars.filter p).map (·.name),
      Declaration.Uncut name := fun p name hname =>
    hvars name ((List.filter_sublist.map _).subset hname)
  intro d hd
  rw [declared, List.mem_append, List.mem_append] at hd
  rcases hd with (hd | hd) | hd
  · unfold globalLines at hd
    split at hd
    · cases hd
    · cases List.mem_singleton.1 hd
      exact Declaration.legible_globals (hsome _)
  · obtain ⟨b, hb, rfl⟩ := List.mem_map.1 hd
    have hdeclared := hr.breeds b hb
    exact Declaration.legible_breed (Declaration.mem_kinds hdeclared.kind) hdeclared.plural.uncut
      hdeclared.singular.uncut
  · obtain ⟨owner, howner, rfl⟩ := List.mem_map.1 hd
    exact Declaration.legible_own (hr.uncut_owner howner) (hsome _)

/-- No variable has the name of a breed. -/
theorem Coherent.not_mem_breed_names (hr : r.Coherent) {v : Variable} (hv : v ∈ r.vars) {b : Breed}
    (hb : b ∈ r.breeds) : v.name ∉ [b.plural, b.singular] := by
  have hnodup := hr.distinct
  rw [names, List.map_append] at hnodup
  intro hmem
  have hbreed : v.name ∈ r.breeds.flatMap fun b => [b.plural, b.singular] :=
    List.mem_flatMap.2 ⟨b, hb, hmem⟩
  exact (List.nodup_append.1 hnodup).2.2 _ (List.mem_map_of_mem hbreed) _
    (List.mem_map_of_mem (List.mem_map_of_mem hv)) rfl

/-- Of the variables only the one itself has its name. -/
theorem Coherent.name_mem_iff (hr : r.Coherent) {v : Variable} (hv : v ∈ r.vars)
    (p : Variable → Bool) : v.name ∈ (r.vars.filter p).map (·.name) ↔ p v = true := by
  rw [List.mem_map]
  constructor
  · rintro ⟨u, hu, hsame⟩
    obtain ⟨hu, hp⟩ := List.mem_filter.1 hu
    rwa [List.inj_on_of_nodup_map hr.nodup_varNames hu hv hsame] at hp
  · intro hp
    exact ⟨v, List.mem_filter.2 ⟨hv, hp⟩, rfl⟩

theorem Coherent.filter_globalLines (hr : r.Coherent) {v : Variable} (hv : v ∈ r.vars)
    {owner : String} (howner : Declaration.holder v.scope = some owner) :
    r.globalLines.filter (v.name ∈ ·.names) = [] := by
  have hnot : v.name ∉ unowned r.vars := by
    rw [unowned, hr.name_mem_iff hv, beq_iff_eq]
    intro hglobal
    rw [hglobal] at howner
    cases howner
  unfold globalLines
  split
  · rfl
  · simp [Declaration.names, hnot]

theorem Coherent.filter_breedLines (hr : r.Coherent) {v : Variable} (hv : v ∈ r.vars) :
    r.breedLines.filter (v.name ∈ ·.names) = [] := by
  rw [List.filter_eq_nil_iff]
  intro d hd hmem
  obtain ⟨b, hb, rfl⟩ := List.mem_map.1 hd
  have hb : b ∈ r.breeds := (List.mem_filter.1 hb).1
  exact hr.not_mem_breed_names hv hb (by simpa [Declaration.names] using hmem)

theorem Coherent.filter_ownLines (hr : r.Coherent) {v : Variable} (hv : v ∈ r.vars)
    {owner : String} (howner : Declaration.holder v.scope = some owner) :
    r.ownLines.filter (v.name ∈ ·.names) = [.own owner (ownedBy r.vars owner)] := by
  have hmem : owner ∈ variableOwners r.vars := mem_variableOwners.2 ⟨v, hv, howner⟩
  have hlines : ∀ o ∈ variableOwners r.vars,
      decide (v.name ∈ ownedBy r.vars o) = (o == owner) := by
    intro o _
    rw [Bool.eq_iff_iff, decide_eq_true_iff, ownedBy, hr.name_mem_iff hv, howner, beq_iff_eq,
      beq_iff_eq, Option.some_inj, eq_comm]
  have hone := List.filter_congr hlines
  rw [List.filter_beq, List.count_eq_one_of_mem (nodup_owners r.vars) hmem] at hone
  rw [ownLines, List.filter_map]
  exact congrArg (List.map fun o => Declaration.own o (ownedBy r.vars o)) hone

/-- A variable that is not global stands in the line of its owner and in no other line. -/
theorem Coherent.filter_declared (hr : r.Coherent) {v : Variable} (hv : v ∈ r.vars)
    {owner : String} (howner : Declaration.holder v.scope = some owner) :
    r.declared.filter (v.name ∈ ·.names) = [.own owner (ownedBy r.vars owner)] := by
  rw [declared, List.filter_append, List.filter_append, hr.filter_globalLines hv howner,
    hr.filter_breedLines hv, hr.filter_ownLines hv howner]
  rfl

end Registries

namespace RegistryEdit

open Registries

/-- An edit that declares a variable with a free name is accepted. -/
theorem apply_addVariable {r : Registries} {v : Variable} {scope : Scope} (hname : Usable v.name)
    (hscope : r.resolveScope v.scope = .ok scope) (hfree : fold v.name ∉ r.names.map fold) :
    (RegistryEdit.addVariable v.name v.scope).apply r =
      ⟨r.breeds, r.vars ++ [{ v with scope }]⟩ := by
  simp only [apply, change, addVariable_of_free hname hscope hfree]

/-- The first declared breed is found by its plural in any case. -/
theorem resolveScope_first {b : Breed} {owner : String} {vars : List Variable}
    (hcustom : b.builtin = false) (hsame : sameName b.plural owner = true) :
    resolveScope ⟨builtinBreeds ++ [b], vars⟩ (.breed owner) = .ok (.breed b.plural) := by
  have hfound : (builtinBreeds ++ [b]).find? (fun b => !b.builtin && sameName b.plural owner) =
      some b := by
    rw [List.find?_append, List.find?_eq_none.2 (by simp [builtinBreeds]), Option.none_or,
      List.find?_singleton]
    simp [hcustom, hsame]
  rw [resolveScope, hfound]

/-- After any edits of a model without declarations, the lines and words of its declarations give
back all that it declares: the owners are different names, each a set of agents that is built in or
that a line before declares, and a variable that is not global stands in the line of its owner
alone. -/
theorem read?_declarations_run_empty (edits : List RegistryEdit) :
    Declaration.read? ("\n\n".intercalate (run .empty edits).declarations) =
        some (run .empty edits).declared ∧
      ((variableOwners (run .empty edits).vars).map fold).Nodup ∧
      (∀ owner ∈ variableOwners (run .empty edits).vars,
        owner ∈ ["turtles", "patches", "links"] ∨
          ∃ kind singular, .breed kind owner singular ∈ (run .empty edits).breedLines) ∧
      ∀ v ∈ (run .empty edits).vars, ∀ owner, Declaration.holder v.scope = some owner →
        (run .empty edits).declared.filter (v.name ∈ ·.names) =
          [.own owner (ownedBy (run .empty edits).vars owner)] := by
  have hr := coherent_run coherent_empty edits
  refine ⟨read?_declarations hr.legible_declared, hr.nodup_fold_owners, ?_, ?_⟩
  · intro owner howner
    refine (hr.mem_owners howner).imp_right ?_
    rintro ⟨b, hb, rfl⟩
    exact ⟨b.kind, b.singular, List.mem_map_of_mem hb⟩
  · exact fun v hv owner howner => hr.filter_declared hv howner

/-- A global variable, and a variable of a declared breed that is named in another case. -/
def hungerEdits : List RegistryEdit :=
  [.addBreed "wolves" "wolf" .turtle, .addVariable "hunger" (.breed "WOLVES"),
    .addVariable "rate" .global]

theorem run_hungerEdits : run .empty hungerEdits =
    ⟨builtinBreeds ++ [⟨"wolves", "wolf", .turtle, false⟩],
      [⟨"hunger", .breed "wolves"⟩, ⟨"rate", .global⟩]⟩ := by
  have hwolves : (RegistryEdit.addBreed "wolves" "wolf" .turtle).apply .empty =
      ⟨builtinBreeds ++ [⟨"wolves", "wolf", .turtle, false⟩], []⟩ := by decide +kernel
  have hsame : sameName "wolves" "WOLVES" = true := by
    have hupper : fold "WOLVES" = "wolves" := by decide +kernel
    have hlower : fold "wolves" = "wolves" := by decide +kernel
    rw [sameName_iff, hupper, hlower]
  have hhunger := apply_addVariable
    (r := ⟨builtinBreeds ++ [⟨"wolves", "wolf", .turtle, false⟩], []⟩)
    (v := ⟨"hunger", .breed "WOLVES"⟩) ⟨by decide +kernel, by decide +kernel⟩
    (resolveScope_first rfl hsame) (by decide +kernel)
  have hrate := apply_addVariable
    (r := ⟨builtinBreeds ++ [⟨"wolves", "wolf", .turtle, false⟩], [⟨"hunger", .breed "wolves"⟩]⟩)
    (v := ⟨"rate", .global⟩) ⟨by decide +kernel, by decide +kernel⟩ rfl (by decide +kernel)
  simp only [run, hungerEdits, List.foldl_cons, List.foldl_nil, hwolves, hhunger]
  exact hrate

/-- After these, breeds of links of both kinds and variables of all sets of agents. -/
def terrainEdits : List RegistryEdit :=
  hungerEdits ++ [.addBreed "paths" "path" .undirectedLink, .addVariable "age" .turtles,
    .addBreed "roads" "road" .directedLink, .addVariable "grass" .patches,
    .addVariable "toll" .links, .addVariable "speed" .turtles, .addVariable "season" .global]

theorem run_terrainEdits : run .empty terrainEdits =
    ⟨builtinBreeds ++ [⟨"wolves", "wolf", .turtle, false⟩,
        ⟨"paths", "path", .undirectedLink, false⟩, ⟨"roads", "road", .directedLink, false⟩],
      [⟨"hunger", .breed "wolves"⟩, ⟨"rate", .global⟩, ⟨"age", .turtles⟩, ⟨"grass", .patches⟩,
        ⟨"toll", .links⟩, ⟨"speed", .turtles⟩, ⟨"season", .global⟩]⟩ := by
  have hfront := run_hungerEdits
  rw [run] at hfront
  rw [run, terrainEdits, List.foldl_append, hfront]
  decide +kernel

theorem read?_declarations_terrainEdits :
    Declaration.read? ("\n\n".intercalate (run .empty terrainEdits).declarations) =
        some [.globals ["rate", "season"], .breed .turtle "wolves" "wolf",
          .breed .undirectedLink "paths" "path", .breed .directedLink "roads" "road",
          .own "wolves" ["hunger"], .own "turtles" ["age", "speed"], .own "patches" ["grass"],
          .own "links" ["toll"]] ∧
      (run .empty terrainEdits).declared.filter ("speed" ∈ ·.names) =
        [.own "turtles" ["age", "speed"]] := by
  obtain ⟨hread, -, -, howned⟩ := read?_declarations_run_empty terrainEdits
  rw [run_terrainEdits] at hread howned ⊢
  exact ⟨hread, howned ⟨"speed", .turtles⟩ (by decide) "turtles" rfl⟩

end RegistryEdit

end AgentBlocks
