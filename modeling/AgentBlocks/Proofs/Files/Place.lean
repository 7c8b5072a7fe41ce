import AgentBlocks.Files.Tree
import AgentBlocks.Proofs.Text.Lines
import AgentBlocks.Proofs.Text.Words
import Mathlib.Algebra.GroupWithZero.Nat

/-!
Paths and the places that they lead to. The path of a place leads to that place again, and no longer
path does so: a file that was found under any spelling of its path is found under the one spelling
that its place has.
-/
namespace AgentBlocks.Files

theorem steps_eq_splitOn (path : List Char) : steps path = path.splitOn '/' := by
  induction path with
  | nil => rfl
  | cons c path ih =>
      obtain ⟨first, rest, hsplit⟩ := List.exists_cons_of_ne_nil (List.splitOn_ne_nil '/' path)
      rw [hsplit] at ih
      rw [List.splitOn_cons_eq_if_modifyHead, hsplit]
      by_cases hc : c = '/'
      · subst hc
        exact congrArg ([] :: ·) ih
      · have hcons : steps (c :: path) = (c :: first) :: rest := by
          rw [steps, List.foldr_cons, ← steps, ih]
          split
          · rename_i heq
            exact absurd rfl hc
          · rename_i heq
            cases heq
          · rename_i heq
            cases heq
            rfl
        simp [hcons, hc]

/-- A step that leads into a directory. -/
structure LeadsDown (step : String) : Prop where
  filled : step ≠ ""
  here : step ≠ "."
  above : step ≠ ".."
  fits : fitsName step = true

/-- A name that can stand in a path. -/
structure IsName (s : String) : Prop extends LeadsDown s where
  slash : '/' ∉ s.toList
  nul : '\x00' ∉ s.toList

/-- How steps lead from one place to another. -/
inductive Tree.Follows (t : Tree) : Place → List String → Place → Prop
  | here {p : Place} : Follows t p [] p
  | idle {p q : Place} {step : String} {rest : List String} (hidle : step = "" ∨ step = ".")
      (hrest : Follows t p rest q) : Follows t p (step :: rest) q
  | above {p q : Place} {rest : List String} (hrest : Follows t p.above rest q) :
      Follows t p (".." :: rest) q
  | last {p : Place} {step : String} (hstep : LeadsDown step) : Follows t p [step] (p.child step)
  | down {p q : Place} {step : String} {rest : List String} (hstep : LeadsDown step)
      (hdirectory : t.isDirectory (p.child step) = true)
      (hrest : Follows t (p.child step) rest q) : Follows t p (step :: rest) q

/-- The names of the place can stand in a path, and the places on the way to it are directories. -/
structure Tree.Reached (t : Tree) (p : Place) : Prop where
  names : ∀ name ∈ p.names, IsName name
  directories : ∀ front name rest, p.names = front ++ name :: rest →
    t.isDirectory ⟨p.base, front⟩ = true

namespace Tree

variable {t : Tree} {p q : Place} {name : String}

theorem isDirectory_of_nil (h : p.names = []) : t.isDirectory p = true := by
  simp [isDirectory, entry?, h]

theorem reached_of_nil (h : p.names = []) : t.Reached p := by
  refine ⟨fun name hname => ?_, fun front name rest hsplit => ?_⟩
  · rw [h] at hname
    cases hname
  · rw [h] at hsplit
    cases front <;> cases hsplit

theorem Reached.child (h : t.Reached p) (hp : t.isDirectory p = true) (hname : IsName name) :
    t.Reached (p.child name) where
  names := List.forall_mem_append.2 ⟨h.names, List.forall_mem_singleton.2 hname⟩
  directories front n rest hsplit := by
    have hsplit : p.names ++ [name] = front ++ n :: rest := hsplit
    rcases List.eq_nil_or_concat' rest with rfl | ⟨rest, last, rfl⟩
    · rw [← (List.append_inj' hsplit rfl).1]
      exact hp
    · rw [← List.cons_append, ← List.append_assoc] at hsplit
      exact h.directories front n rest (List.append_inj' hsplit rfl).1

theorem Reached.above (h : t.Reached p) : t.Reached p.above ∧ t.isDirectory p.above = true := by
  obtain ⟨base, names⟩ := p
  rcases List.eq_nil_or_concat' names with rfl | ⟨front, last, rfl⟩
  · cases base <;> exact ⟨reached_of_nil rfl, isDirectory_of_nil rfl⟩
  · have habove : Place.above ⟨base, front ++ [last]⟩ = ⟨base, front⟩ := by
      cases base <;> simp [Place.above]
    rw [habove]
    refine ⟨⟨(List.forall_mem_append.1 h.names).1, fun front' name rest hsplit => ?_⟩,
      h.directories front last [] rfl⟩
    refine h.directories front' name (rest ++ [last]) ?_
    rw [show front = front' ++ name :: rest from hsplit]
    simp

theorem followSteps_of_leadsDown {step : String} {rest : List String} (hstep : LeadsDown step) :
    t.followSteps p (step :: rest) =
      if rest.isEmpty then some (p.child step)
      else if t.isDirectory (p.child step) then t.followSteps (p.child step) rest
      else none := by
  rw [followSteps, if_neg (not_or.2 ⟨hstep.filled, hstep.here⟩), if_neg hstep.above,
    if_neg (by simp [hstep.fits])]

theorem followSteps_eq_some {parts : List String} :
    t.followSteps p parts = some q ↔ t.Follows p parts q := by
  constructor
  · intro h
    induction parts generalizing p with
    | nil =>
        cases h
        exact .here
    | cons step rest ih =>
        by_cases hidle : step = "" ∨ step = "."
        · rw [followSteps, if_pos hidle] at h
          exact .idle hidle (ih h)
        rcases eq_or_ne step ".." with rfl | habove
        · exact .above (ih h)
        by_cases hfits : fitsName step = true
        · obtain ⟨hfilled, hhere⟩ := not_or.1 hidle
          have hstep : LeadsDown step := ⟨hfilled, hhere, habove, hfits⟩
          rw [followSteps_of_leadsDown hstep] at h
          split at h
          · rename_i hlast
            cases List.isEmpty_iff.1 hlast
            cases h
            exact .last hstep
          · split at h
            · rename_i hdirectory
              exact .down hstep hdirectory (ih h)
            · cases h
        · rw [followSteps, if_neg hidle, if_neg habove, if_pos (by simpa using hfits)] at h
          cases h
  · intro h
    induction h with
    | here => rfl
    | idle hidle _ ih =>
        rw [followSteps, if_pos hidle]
        exact ih
    | above _ ih => exact ih
    | last hstep => exact followSteps_of_leadsDown hstep
    | @down p q step rest hstep hdirectory hrest ih =>
        rw [followSteps_of_leadsDown hstep, if_pos hdirectory, ih]
        cases rest with
        | nil =>
            cases hrest
            rfl
        | cons _ _ => rfl

theorem Follows.reached {parts : List String} (h : t.Follows p parts q) (hp : t.Reached p)
    (hdirectory : t.isDirectory p = true)
    (hparts : ∀ step ∈ parts, '/' ∉ step.toList ∧ '\x00' ∉ step.toList) : t.Reached q := by
  induction h with
  | here => exact hp
  | idle _ _ ih => exact ih hp hdirectory (List.forall_mem_cons.1 hparts).2
  | above _ ih => exact ih hp.above.1 hp.above.2 (List.forall_mem_cons.1 hparts).2
  | last hstep =>
      obtain ⟨hslash, hnul⟩ := (List.forall_mem_cons.1 hparts).1
      exact hp.child hdirectory ⟨hstep, hslash, hnul⟩
  | down hstep hnext _ ih =>
      obtain ⟨⟨hslash, hnul⟩, hrest⟩ := List.forall_mem_cons.1 hparts
      exact ih (hp.child hdirectory ⟨hstep, hslash, hnul⟩) hnext hrest

/-- The names of a place lead to it from its base. -/
theorem Reached.follows (h : t.Reached p) (hne : p.names ≠ []) :
    t.Follows ⟨p.base, []⟩ p.names p := by
  have hsuffix : ∀ front rest, p.names = front ++ rest → rest ≠ [] →
      t.Follows ⟨p.base, front⟩ rest p := by
    intro front rest
    induction rest generalizing front with
    | nil => exact fun _ hrest => absurd rfl hrest
    | cons name rest ih =>
        intro hsplit _
        have hname := (h.names name (by simp [hsplit])).toLeadsDown
        have hchild : Place.child ⟨p.base, front⟩ name = ⟨p.base, front ++ [name]⟩ := rfl
        cases rest with
        | nil =>
            have hlast : Place.child ⟨p.base, front⟩ name = p := by
              rw [hchild, ← hsplit]
            rw [← hlast]
            exact .last hname
        | cons next rest =>
            have hdirectory := h.directories (front ++ [name]) next rest (by simp [hsplit])
            refine .down hname hdirectory ?_
            exact ih (front ++ [name]) (by simp [hsplit]) (List.cons_ne_nil next rest)
  exact hsuffix [] p.names rfl hne

end Tree

namespace Place

/-- The steps of the path of a place. -/
def parts (p : Place) : List String :=
  (match p.base with
    | .root => [""]
    | .working levels => List.replicate levels "..") ++ p.names

theorem path_eq {p : Place} (h : p.names ≠ []) : p.path = "/".intercalate p.parts := by
  obtain ⟨base, names⟩ := p
  cases base with
  | working levels => rfl
  | root =>
      obtain ⟨name, rest, hnames⟩ := List.exists_cons_of_ne_nil h
      rw [path, parts, List.singleton_append, show names = name :: rest from hnames,
        String.intercalate_cons_cons, String.empty_append]

/-- The length of the path of a place, with a slash behind each of its steps. -/
def weight (p : Place) : Nat := (p.parts.map (·.utf8ByteSize + 1)).sum

theorem weight_child (p : Place) (name : String) :
    (p.child name).weight = p.weight + (name.utf8ByteSize + 1) := by
  simp [weight, parts, child, Nat.add_assoc]

theorem weight_above_le (p : Place) : p.above.weight ≤ p.weight + ("..".utf8ByteSize + 1) := by
  obtain ⟨base, names⟩ := p
  rcases List.eq_nil_or_concat' names with rfl | ⟨front, last, rfl⟩
  · cases base with
    | root => simp [weight, parts, above]
    | working levels => simp [weight, parts, above, List.replicate_succ']
  · have habove : above ⟨base, front ++ [last]⟩ = ⟨base, front⟩ := by
      cases base <;> simp [above]
    have hchild := weight_child ⟨base, front⟩ last
    rw [habove, show (⟨base, front ++ [last]⟩ : Place) = child ⟨base, front⟩ last from rfl, hchild]
    omega

end Place

theorem utf8ByteSize_intercalate {parts : List String} (hne : parts ≠ []) :
    ("/".intercalate parts).utf8ByteSize + 1 = (parts.map (·.utf8ByteSize + 1)).sum := by
  induction parts with
  | nil => exact absurd rfl hne
  | cons part rest ih =>
      cases rest with
      | nil => simp
      | cons next rest =>
          have hslash : "/".utf8ByteSize = 1 := rfl
          rw [String.intercalate_cons_cons, String.utf8ByteSize_append, String.utf8ByteSize_append,
            List.map_cons, List.sum_cons, ← ih (List.cons_ne_nil next rest), hslash, Nat.add_assoc]

theorem intercalate_steps (path : String) :
    "/".intercalate ((steps path.toList).map String.ofList) = path := by
  rw [← String.toList_inj, String.toList_intercalate, List.map_map, steps_eq_splitOn]
  simp [Function.comp_def, List.intercalate_splitOn]

/-- The steps of a path have characters of the path, the slash apart. -/
theorem mem_steps {path step : String} (h : step ∈ (steps path.toList).map String.ofList) :
    '/' ∉ step.toList ∧ ∀ c ∈ step.toList, c ∈ path.toList := by
  obtain ⟨piece, hpiece, rfl⟩ := List.mem_map.1 h
  rw [steps_eq_splitOn] at hpiece
  rw [String.toList_ofList]
  exact Text.mem_splitOn hpiece

namespace Tree

variable {t : Tree} {p q : Place}

theorem Follows.weight_le {parts : List String} (h : t.Follows p parts q) :
    q.weight ≤ p.weight + (parts.map (·.utf8ByteSize + 1)).sum := by
  induction h with
  | here => exact Nat.le_refl _
  | idle _ _ ih =>
      rw [List.map_cons, List.sum_cons]
      omega
  | @above p _ _ _ ih =>
      have hstep := p.weight_above_le
      rw [List.map_cons, List.sum_cons]
      omega
  | last _ => simp [Place.weight_child]
  | down _ _ _ ih =>
      rw [Place.weight_child] at ih
      rw [List.map_cons, List.sum_cons]
      omega

end Tree

theorem isFollowable_iff {path : String} :
    isFollowable path = true ↔ '\x00' ∉ path.toList ∧ path.utf8ByteSize ≤ pathLimit := by
  simp [isFollowable]

theorem steps_of_isAbsolute {path : String} (h : isAbsolute path = true) :
    ∃ rest, (steps path.toList).map String.ofList = "" :: rest := by
  obtain ⟨rest, hchars⟩ := List.head?_eq_some_iff.1 (beq_iff_eq.1 h)
  exact ⟨(steps rest).map String.ofList, by rw [hchars]; rfl⟩

theorem names_start (path : String) : (Place.start path).names = [] := by
  unfold Place.start
  split <;> rfl

namespace Tree

variable {t : Tree} {p : Place} {path : String}

/-- A path begins with the parts of the place that it is followed from. -/
theorem exists_steps_of_place? (h : t.place? path = some p) :
    isFollowable path = true ∧ ∃ rest, t.Follows (Place.start path) rest p ∧
      (steps path.toList).map String.ofList = (Place.start path).parts ++ rest := by
  unfold place? at h
  split at h
  · cases h
  · rename_i hpath
    refine ⟨by simpa using (not_or.1 (mt Bool.or_eq_true_iff.2 hpath)).2, ?_⟩
    by_cases habsolute : isAbsolute path = true
    · obtain ⟨rest, hsteps⟩ := steps_of_isAbsolute habsolute
      have hstart : Place.start path = .root := if_pos habsolute
      rw [hsteps, followSteps, if_pos (.inl rfl)] at h
      exact ⟨rest, followSteps_eq_some.1 h, by rw [hsteps, hstart]; rfl⟩
    · have hstart : Place.start path = .working := if_neg habsolute
      exact ⟨_, followSteps_eq_some.1 h, by rw [hstart]; rfl⟩

theorem Reached.parts (h : t.Reached p) :
    ∀ part ∈ p.parts, '/' ∉ part.toList ∧ '\x00' ∉ part.toList := by
  refine List.forall_mem_append.2 ⟨fun part hpart => ?_, fun name hname => ?_⟩
  · cases hbase : p.base with
    | root =>
        rw [hbase] at hpart
        cases List.mem_singleton.1 hpart
        decide
    | working levels =>
        rw [hbase] at hpart
        cases List.eq_of_mem_replicate hpart
        decide
  · exact ⟨(h.names name hname).slash, (h.names name hname).nul⟩

/-- Steps upwards from the working directory. -/
theorem Follows.upwards {levels : Nat} {parts : List String}
    (h : t.Follows ⟨.working levels, []⟩ parts p) :
    t.Follows .working (List.replicate levels ".." ++ parts) p := by
  have hfrom : ∀ start count, start + count = levels →
      t.Follows ⟨.working start, []⟩ (List.replicate count ".." ++ parts) p := by
    intro start count
    induction count generalizing start with
    | zero =>
        rintro rfl
        exact h
    | succ count ih =>
        intro hlevels
        rw [List.replicate_succ, List.cons_append]
        exact .above (ih (start + 1) (by omega))
  exact hfrom 0 levels (Nat.zero_add levels)

/-- What a path leads to is reached. -/
theorem reached_of_place? (h : t.place? path = some p) : t.Reached p := by
  obtain ⟨hpath, rest, hfollow, hsteps⟩ := exists_steps_of_place? h
  have hnul := (isFollowable_iff.1 hpath).1
  have hstart := names_start path
  refine hfollow.reached (reached_of_nil hstart) (isDirectory_of_nil hstart) ?_
  intro step hstep
  obtain ⟨hslash, hchars⟩ := mem_steps (hsteps ▸ List.mem_append_right _ hstep)
  exact ⟨hslash, fun hmem => hnul (hchars _ hmem)⟩

variable (h : t.place? path = some p) (hne : p.names ≠ [])
include h hne

theorem utf8ByteSize_path_le : p.path.utf8ByteSize ≤ path.utf8ByteSize := by
  obtain ⟨-, rest, hfollow, hsteps⟩ := exists_steps_of_place? h
  have hweight := hfollow.weight_le
  have hparts : p.parts ≠ [] := List.append_ne_nil_of_right_ne_nil _ hne
  have hlong := utf8ByteSize_intercalate hparts
  have hall : (steps path.toList).map String.ofList ≠ [] := by
    rw [steps_eq_splitOn]
    simp [List.splitOn_ne_nil]
  have hpath := utf8ByteSize_intercalate hall
  rw [intercalate_steps, hsteps, List.map_append, List.sum_append] at hpath
  rw [Place.path_eq hne]
  simp only [Place.weight] at hweight
  omega

theorem isFollowable_path : isFollowable p.path = true := by
  obtain ⟨hpath, -⟩ := exists_steps_of_place? h
  have hsize := Nat.le_trans (utf8ByteSize_path_le h hne) (isFollowable_iff.1 hpath).2
  refine isFollowable_iff.2 ⟨?_, hsize⟩
  rw [Place.path_eq hne]
  exact Text.not_mem_intercalate (by decide) fun part hpart =>
    ((reached_of_place? h).parts part hpart).2

/-- The path of a place leads to it. -/
theorem place?_path : t.place? p.path = some p := by
  have hreached := reached_of_place? h
  have hparts : p.parts ≠ [] := List.append_ne_nil_of_right_ne_nil _ hne
  have hsteps : (steps p.path.toList).map String.ofList = p.parts := by
    rw [steps_eq_splitOn, Place.path_eq hne, String.toList_intercalate]
    have hsplit : (['/'].intercalate (p.parts.map String.toList)).splitOn '/' =
        p.parts.map String.toList :=
      List.splitOn_intercalate '/'
        (List.forall_mem_map.2 fun part hpart => (hreached.parts part hpart).1)
        (by simpa using hparts)
    rw [show "/".toList = ['/'] from rfl, hsplit, List.map_map]
    simp [Function.comp_def]
  have hempty : p.path.isEmpty = false := by
    rw [Bool.eq_false_iff, ne_eq, String.isEmpty_iff]
    intro hpath
    rw [hpath] at hsteps
    obtain ⟨name, rest, hnames⟩ := List.exists_cons_of_ne_nil hne
    have hmem : name ∈ p.parts := List.mem_append_right _ (by simp [hnames])
    rw [← hsteps] at hmem
    exact (hreached.names name (by simp [hnames])).filled (List.mem_singleton.1 hmem)
  rw [place?, hempty, isFollowable_path h hne, hsteps, if_neg (by decide)]
  obtain ⟨base, names⟩ := p
  cases base with
  | root =>
      have habsolute : isAbsolute (Place.path ⟨.root, names⟩) = true := by
        simp [isAbsolute, Place.path]
      have hstart : Place.start (Place.path ⟨.root, names⟩) = .root := if_pos habsolute
      rw [hstart, Place.parts, List.singleton_append]
      exact followSteps_eq_some.2 (.idle (.inl rfl) (hreached.follows hne))
  | working levels =>
      have hrelative : ¬isAbsolute (Place.path ⟨.working levels, names⟩) = true := by
        intro habsolute
        obtain ⟨rest, hfirst⟩ := steps_of_isAbsolute habsolute
        rw [hsteps] at hfirst
        cases levels with
        | zero =>
            have hnames : names = "" :: rest := hfirst
            exact (hreached.names "" (by simp [hnames])).filled rfl
        | succ levels => exact absurd (List.cons.inj hfirst).1 (by decide)
      have hstart : Place.start (Place.path ⟨.working levels, names⟩) = .working :=
        if_neg hrelative
      rw [hstart, Place.parts]
      exact followSteps_eq_some.2 (hreached.follows hne).upwards

end Tree

end AgentBlocks.Files
