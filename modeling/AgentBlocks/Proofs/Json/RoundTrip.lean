import AgentBlocks.Json.Reader
import AgentBlocks.Proofs.Json.Tokens

/-!
Written values are read back. What a value has for tokens puts it in its place on the stack of open
arrays and objects, whatever is open around it.
-/
namespace AgentBlocks.Json

/-- The tokens of a value build it inside any open arrays and objects. -/
def Builds (v : Json) : Prop :=
  ∀ frames, v.tokens.foldlM readToken (.value frames) = some (.after v frames)

theorem foldlM_readToken_append {reading reading' : Reading} {ts us : List Token}
    (h : ts.foldlM readToken reading = some reading') :
    (ts ++ us).foldlM readToken reading = us.foldlM readToken reading' := by
  rw [List.foldlM_append, h]
  rfl

/-- The first item of an array is read like any value. -/
theorem foldlM_firstItem (v : Json) (frames : List Frame) :
    v.tokens.foldlM readToken (.firstItem frames) =
      v.tokens.foldlM readToken (.value (.array [] :: frames)) := by
  cases v with
  | null | bool | number | string => rfl
  | array items => cases items <;> rfl
  | object members => cases members <;> rfl

theorem foldlM_itemTokens {vs : List Json} (h : ∀ v ∈ vs, v.Builds) (v : Json) (items : List Json)
    (frames : List Frame) :
    (itemTokens vs ++ [Token.closeArray]).foldlM readToken (.after v (.array items :: frames)) =
      some (.after (.array (items.reverse ++ v :: vs)) frames) := by
  induction vs generalizing v items with
  | nil => simp [itemTokens, readToken]
  | cons v' rest ih =>
      obtain ⟨hv, hrest⟩ := List.forall_mem_cons.1 h
      have hcomma : readToken (.after v (.array items :: frames)) .comma =
          some (.value (.array (v :: items) :: frames)) := rfl
      rw [itemTokens, List.cons_append, List.cons_append, List.foldlM_cons, hcomma,
        Option.bind_eq_bind, Option.bind_some, List.append_assoc, foldlM_readToken_append (hv _),
        ih hrest, List.reverse_cons, List.append_assoc]
      rfl

theorem foldlM_memberTokens {members : List (Option String × Json)}
    (h : ∀ m ∈ members, m.2.Builds) (key : Option String) (v : Json)
    (before : List (Option String × Json)) (frames : List Frame) :
    (memberTokens members ++ [Token.closeObject]).foldlM readToken
        (.after v (.object before key :: frames)) =
      some (.after (.object (before.reverse ++ (key, v) :: members)) frames) := by
  induction members generalizing key v before with
  | nil => simp [memberTokens, readToken]
  | cons m rest ih =>
      obtain ⟨key', v'⟩ := m
      obtain ⟨hv, hrest⟩ := List.forall_mem_cons.1 h
      have hkey : [Token.comma, .string key', .colon].foldlM readToken
          (.after v (.object before key :: frames)) =
            some (.value (.object ((key, v) :: before) key' :: frames)) := rfl
      have htokens : memberTokens ((key', v') :: rest) ++ [.closeObject] =
          [.comma, .string key', .colon] ++
            (v'.tokens ++ (memberTokens rest ++ [.closeObject])) := by
        simp [memberTokens]
      rw [htokens, foldlM_readToken_append hkey, foldlM_readToken_append (hv _), ih hrest,
        List.reverse_cons, List.append_assoc]
      rfl

theorem builds_of_legible {v : Json} (h : v.Legible) : v.Builds := by
  induction h with
  | null | bool | number | string => exact fun _ => rfl
  | @array items _ ih =>
      intro frames
      cases items with
      | nil => rfl
      | cons v vs =>
          obtain ⟨hv, hvs⟩ := List.forall_mem_cons.1 ih
          have hopen : readToken (.value frames) .openArray = some (.firstItem frames) := rfl
          have hfirst := (foldlM_firstItem v frames).trans (hv _)
          rw [tokens, List.append_assoc, List.cons_append, List.foldlM_cons, hopen,
            Option.bind_eq_bind, Option.bind_some, foldlM_readToken_append hfirst,
            foldlM_itemTokens hvs]
          rfl
  | @object members _ ih =>
      intro frames
      cases members with
      | nil => rfl
      | cons m members =>
          obtain ⟨key, v⟩ := m
          obtain ⟨hv, hmembers⟩ := List.forall_mem_cons.1 ih
          have hkey : [Token.openObject, .string key, .colon].foldlM readToken (.value frames) =
              some (.value (.object [] key :: frames)) := rfl
          have htokens : (Json.object ((key, v) :: members)).tokens =
              [.openObject, .string key, .colon] ++
                (v.tokens ++ (memberTokens members ++ [.closeObject])) := by
            simp [tokens]
          rw [htokens, foldlM_readToken_append hkey, foldlM_readToken_append (hv _),
            foldlM_memberTokens hmembers]
          rfl

/-- A value is read back from its text. -/
theorem parse?_pretty {v : Json} (h : v.Legible) : parse? v.pretty = some v := by
  simp [parse?, pretty, tokens?_chars h, builds_of_legible h []]

end AgentBlocks.Json
