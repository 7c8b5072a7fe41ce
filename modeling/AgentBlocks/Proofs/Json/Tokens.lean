import AgentBlocks.Json.Printer
import AgentBlocks.Json.Token
import AgentBlocks.Proofs.Json.Numeral

/-!
The tokens of written values. A token ends with itself or at a delimiter that follows it, so the
text of a value in a text gives its own tokens, whatever stands before and behind it.
-/
namespace AgentBlocks.Json

/-- The state stands behind the given tokens: the next delimiter and the end of the text find them
complete, also when the last one may still go on. -/
structure Ends (state : Lexing × List Token) (tokens : List Token) : Prop where
  delimiter : ∀ {c}, inNumeral c = false → c.isLower = false →
    lexChar state c = startToken tokens c
  last : lexEnd state = some tokens.reverse

/-- Characters that end every token before them and give some tokens of their own. -/
def Opens (cs : List Char) (tokens : List Token) : Prop :=
  ∀ ⦃state before⦄, Ends state before →
    cs.foldlM lexChar state = some (.between, tokens.reverse ++ before)

/-- Characters that end every token before them and give tokens of which the last may go on. -/
def Continues (cs : List Char) (tokens : List Token) : Prop :=
  ∀ ⦃state before⦄, Ends state before →
    ∃ state', cs.foldlM lexChar state = some state' ∧ Ends state' (tokens.reverse ++ before)

/-- Characters that give some tokens when no token stands before them unfinished. -/
def Reads (cs : List Char) (tokens : List Token) : Prop :=
  ∀ before, ∃ state', cs.foldlM lexChar (.between, before) = some state' ∧
    Ends state' (tokens.reverse ++ before)

theorem ends_between (tokens : List Token) : Ends (.between, tokens) tokens :=
  ⟨fun _ _ => rfl, rfl⟩

section Compose

variable {cs ds : List Char} {ts us : List Token}

theorem foldlM_lexChar_append {state state' : Lexing × List Token}
    (h : cs.foldlM lexChar state = some state') :
    (cs ++ ds).foldlM lexChar state = ds.foldlM lexChar state' := by
  rw [List.foldlM_append, h]
  rfl

theorem Opens.continues (h : Opens cs ts) : Continues cs ts :=
  fun _ _ hends => ⟨_, h hends, ends_between _⟩

theorem Continues.reads (h : Continues cs ts) : Reads cs ts := fun before => h (ends_between before)

theorem Opens.append (h : Opens cs ts) (h' : Opens ds us) : Opens (cs ++ ds) (ts ++ us) := by
  intro state before hends
  rw [foldlM_lexChar_append (h hends), h' (ends_between _), List.reverse_append, List.append_assoc]

theorem Opens.append_reads (h : Opens cs ts) (h' : Reads ds us) :
    Continues (cs ++ ds) (ts ++ us) := by
  intro state before hends
  rw [foldlM_lexChar_append (h hends), List.reverse_append, List.append_assoc]
  exact h' _

theorem Continues.append (h : Continues cs ts) (h' : Continues ds us) :
    Continues (cs ++ ds) (ts ++ us) := by
  intro state before hends
  obtain ⟨state', hstate', hends'⟩ := h hends
  rw [foldlM_lexChar_append hstate', List.reverse_append, List.append_assoc]
  exact h' hends'

theorem continues_nil : Continues [] [] := fun state _ hends => ⟨state, rfl, hends⟩

end Compose

theorem opens_delimiter {c : Char} {tokens : List Token} (hnumeral : inNumeral c = false)
    (hlower : c.isLower = false)
    (hstart : ∀ before, startToken before c = some (.between, tokens.reverse ++ before)) :
    Opens [c] tokens := by
  intro state before hends
  rw [List.foldlM_cons, hends.delimiter hnumeral hlower, hstart]
  rfl

theorem opens_newLine (depth : Nat) : Opens (newLine depth) [] := by
  have hblank : Opens [' '] [] := opens_delimiter rfl rfl fun _ => rfl
  have hblanks : ∀ n, Opens ('\n' :: List.replicate n ' ') [] := by
    intro n
    induction n with
    | zero => exact opens_delimiter rfl rfl fun _ => rfl
    | succ n ih =>
        rw [List.replicate_succ', ← List.cons_append]
        exact ih.append hblank
  exact hblanks _

/-- A word that has been read but may go on. -/
theorem ends_word {reversed : List Char} {token : Token} (hword : wordToken? reversed = some token)
    (before : List Token) : Ends (.word reversed, before) (token :: before) := by
  refine ⟨fun _ hlower => ?_, ?_⟩
  · simp [lexChar, hlower, hword]
  · simp [lexEnd, hword]

theorem reads_null : Reads "null".toList [.null] := fun before =>
  ⟨(.word ['l', 'l', 'u', 'n'], before), rfl, ends_word rfl before⟩

theorem reads_bool (b : Bool) : Reads (if b then "true" else "false").toList [.bool b] := by
  intro before
  cases b with
  | true => exact ⟨(.word ['e', 'u', 'r', 't'], before), rfl, ends_word rfl before⟩
  | false => exact ⟨(.word ['e', 's', 'l', 'a', 'f'], before), rfl, ends_word rfl before⟩

section Numeral

variable {n : Numeral}

theorem ends_number (h : n.WellFormed) (before : List Token) :
    Ends (.number n.text.reverse, before) (.number n :: before) := by
  have hread := Numeral.ofChars?_text h
  refine ⟨fun hnumeral _ => ?_, ?_⟩
  · simp [lexChar, hnumeral, hread]
  · simp [lexEnd, hread]

theorem inNumeral_of_isDigit {c : Char} (h : isDigit c = true) : inNumeral c = true := by
  simp [inNumeral, h]

theorem inNumeral_of_mem_text (h : n.WellFormed) {c : Char} (hc : c ∈ n.text) :
    inNumeral c = true := by
  obtain ⟨negative, whole, fraction, e⟩ := n
  have hsign : ∀ c ∈ (if negative then ['-'] else []), inNumeral c = true := by
    split
    · exact List.forall_mem_singleton.2 rfl
    · nofun
  have hfraction : ∀ c ∈ (if fraction.isEmpty then [] else '.' :: fraction),
      inNumeral c = true := by
    split
    · nofun
    · exact List.forall_mem_cons.2 ⟨rfl, fun c hc => inNumeral_of_isDigit (h.fraction c hc)⟩
  have hexponent : ∀ c ∈ Numeral.exponentText e, inNumeral c = true := by
    cases e with
    | none => nofun
    | some e =>
        obtain ⟨negative, digits⟩ := e
        have hdigits := (h.exponent negative digits rfl).2
        refine List.forall_mem_cons.2 ⟨rfl, List.forall_mem_cons.2 ⟨by cases negative <;> rfl, ?_⟩⟩
        exact fun c hc => inNumeral_of_isDigit (hdigits c hc)
  rw [Numeral.text_eq, Numeral.tailText, List.mem_append, List.mem_append, List.mem_append] at hc
  rcases hc with hc | hc | hc | hc
  · exact hsign c hc
  · exact inNumeral_of_isDigit (h.wholeDigits c hc)
  · exact hfraction c hc
  · exact hexponent c hc

theorem foldlM_inNumeral {cs : List Char} (h : ∀ c ∈ cs, inNumeral c = true)
    (reversed : List Char) (before : List Token) :
    cs.foldlM lexChar (.number reversed, before) =
      some (.number (cs.reverse ++ reversed), before) := by
  induction cs generalizing reversed with
  | nil => rfl
  | cons c rest ih =>
      obtain ⟨hc, hrest⟩ := List.forall_mem_cons.1 h
      have hstep : lexChar (.number reversed, before) c =
          some (.number (c :: reversed), before) := by
        simp [lexChar, hc]
      rw [List.foldlM_cons, hstep, Option.bind_eq_bind, Option.bind_some, ih hrest]
      simp

theorem startToken_numeral {c : Char} (hc : c = '-' ∨ isDigit c = true) (before : List Token) :
    startToken before c = some (.number [c], before) := by
  have hother : ∀ d ∈ [' ', '\t', '\n', '\r', '[', ']', '\x7b', '\x7d', ',', ':', '"'],
      ¬(d = '-' ∨ isDigit d = true) := by simp [isDigit]
  unfold startToken
  split
  iterate 11 exact absurd hc (hother _ (by decide))
  rw [if_pos hc]

theorem text_eq_cons (h : n.WellFormed) :
    ∃ c cs, n.text = c :: cs ∧ (c = '-' ∨ isDigit c = true) := by
  rw [Numeral.text_eq]
  cases n.negative with
  | true => exact ⟨'-', _, rfl, .inl rfl⟩
  | false =>
      obtain ⟨c, cs, hcs⟩ := List.exists_cons_of_ne_nil (Numeral.isWhole_ne_nil h.whole)
      have hc : isDigit c = true := h.wholeDigits c (hcs ▸ List.mem_cons_self)
      exact ⟨c, cs ++ Numeral.tailText n.fraction n.exponent, by rw [hcs]; rfl, .inr hc⟩

theorem reads_number (h : n.WellFormed) : Reads n.text [.number n] := by
  intro before
  obtain ⟨c, cs, htext, hc⟩ := text_eq_cons h
  have hrest : ∀ d ∈ cs, inNumeral d = true := fun d hd =>
    inNumeral_of_mem_text h (htext ▸ List.mem_cons_of_mem c hd)
  refine ⟨(.number n.text.reverse, before), ?_, ends_number h before⟩
  rw [htext, List.foldlM_cons, lexChar, startToken_numeral hc, Option.bind_eq_bind,
    Option.bind_some, foldlM_inNumeral hrest, List.reverse_cons]

end Numeral

theorem hexValue?_hexDigit : ∀ n < 16, hexValue? (hexDigit n) = some n := by decide

/-- A character in a string is read back, escaped or not. -/
theorem foldlM_escape (c : Char) (content : List Char) (before : List Token) :
    (escape c).foldlM lexChar (.string ⟨some content, none⟩, before) =
      some (.string ⟨some (c :: content), none⟩, before) := by
  unfold escape
  split
  iterate 7 rfl
  rename_i hquote hbackslash _ _ _ _ _
  split
  · rename_i hcontrol
    have hhigh := hexValue?_hexDigit (c.toNat / 16) (by omega)
    have hlow := hexValue?_hexDigit (c.toNat % 16) (by omega)
    have hvalue : 16 * (c.toNat / 16) + c.toNat % 16 = c.toNat := by omega
    have hzero : hexValue? '0' = some 0 := rfl
    have hunit : Unfinished.pushUnit ⟨some content, none⟩ c.toNat =
        ⟨some (c :: content), none⟩ := by
      have hfirst : ¬(0xD800 ≤ c.toNat) := by omega
      have hsecond : ¬(0xDC00 ≤ c.toNat) := by omega
      simp [Unfinished.pushUnit, Unfinished.push, hfirst, hsecond]
    simp [lexChar, hzero, hhigh, hlow, hvalue, hunit]
  · rename_i hprinted
    rw [List.foldlM_cons]
    simp [lexChar, show c ≠ '"' from hquote, show c ≠ '\\' from hbackslash, hprinted,
      Unfinished.push]

theorem foldlM_escapes (cs content : List Char) (before : List Token) :
    (cs.flatMap escape).foldlM lexChar (.string ⟨some content, none⟩, before) =
      some (.string ⟨some (cs.reverse ++ content), none⟩, before) := by
  induction cs generalizing content with
  | nil => rfl
  | cons c rest ih =>
      rw [List.flatMap_cons, foldlM_lexChar_append (foldlM_escape c content before), ih,
        List.reverse_cons, List.append_assoc]
      rfl

/-- A string is read back; one without content is written with an escape that forms no text. -/
theorem opens_quoted (content : Option String) : Opens (quoted content) [.string content] := by
  intro state before hends
  have hquote : lexChar state '"' = some (.string ⟨some [], none⟩, before) :=
    hends.delimiter rfl rfl
  cases content with
  | none =>
      have hescape : "\\ud800".toList = ['\\', 'u', 'd', '8', '0', '0'] := rfl
      rw [quoted, hescape, List.cons_append, List.foldlM_cons, hquote]
      rfl
  | some s =>
      rw [quoted, List.cons_append, List.foldlM_cons, hquote, Option.bind_eq_bind, Option.bind_some,
        foldlM_lexChar_append (foldlM_escapes s.toList [] before)]
      simp [lexChar, Unfinished.content]

/-- The numerals in a value have the form of numerals. -/
inductive Legible : Json → Prop
  | null : Legible .null
  | bool (b : Bool) : Legible (.bool b)
  | number {n : Numeral} (h : n.WellFormed) : Legible (.number n)
  | string (content : Option String) : Legible (.string content)
  | array {items : List Json} (h : ∀ v ∈ items, Legible v) : Legible (.array items)
  | object {members : List (Option String × Json)} (h : ∀ m ∈ members, Legible m.2) :
      Legible (.object members)

mutual

/-- The tokens of a value. -/
def tokens : Json → List Token
  | .null => [.null]
  | .bool b => [.bool b]
  | .number n => [.number n]
  | .string content => [.string content]
  | .array [] => [.openArray, .closeArray]
  | .array (v :: vs) => .openArray :: tokens v ++ itemTokens vs ++ [.closeArray]
  | .object [] => [.openObject, .closeObject]
  | .object ((key, v) :: members) =>
    .openObject :: .string key :: .colon :: tokens v ++ memberTokens members ++ [.closeObject]

def itemTokens : List Json → List Token
  | [] => []
  | v :: vs => .comma :: tokens v ++ itemTokens vs

def memberTokens : List (Option String × Json) → List Token
  | [] => []
  | (key, v) :: members => .comma :: .string key :: .colon :: tokens v ++ memberTokens members

end

theorem opens_comma : Opens [','] [.comma] := opens_delimiter rfl rfl fun _ => rfl

theorem opens_openArray : Opens ['['] [.openArray] := opens_delimiter rfl rfl fun _ => rfl

theorem opens_closeArray : Opens [']'] [.closeArray] := opens_delimiter rfl rfl fun _ => rfl

theorem opens_openObject : Opens ['\x7b'] [.openObject] := opens_delimiter rfl rfl fun _ => rfl

theorem opens_closeObject : Opens ['\x7d'] [.closeObject] := opens_delimiter rfl rfl fun _ => rfl

/-- A key with the colon behind it. -/
theorem opens_key (key : Option String) :
    Opens (quoted key ++ [':', ' ']) [.string key, .colon] := by
  have hcolon : Opens [':'] [.colon] := opens_delimiter rfl rfl fun _ => rfl
  have hblank : Opens [' '] [] := opens_delimiter rfl rfl fun _ => rfl
  exact (opens_quoted key).append (hcolon.append hblank)

theorem continues_itemChars {depth : Nat} {vs : List Json}
    (h : ∀ v ∈ vs, Reads (chars depth v) v.tokens) :
    Continues (itemChars depth vs) (itemTokens vs) := by
  induction vs with
  | nil => exact continues_nil
  | cons v rest ih =>
      obtain ⟨hv, hrest⟩ := List.forall_mem_cons.1 h
      rw [itemChars, itemTokens]
      exact ((opens_comma.append (opens_newLine depth)).append_reads hv).append (ih hrest)

theorem continues_memberChars {depth : Nat} {members : List (Option String × Json)}
    (h : ∀ m ∈ members, Reads (chars depth m.2) m.2.tokens) :
    Continues (memberChars depth members) (memberTokens members) := by
  induction members with
  | nil => exact continues_nil
  | cons m rest ih =>
      obtain ⟨key, v⟩ := m
      obtain ⟨hv, hrest⟩ := List.forall_mem_cons.1 h
      have hkey := (opens_comma.append (opens_newLine depth)).append (opens_key key)
      have hmember := (hkey.append_reads hv).append (ih hrest)
      rw [memberChars, memberTokens]
      simpa using hmember

/-- The text of a value gives its tokens. -/
theorem reads_chars {v : Json} (h : v.Legible) (depth : Nat) : Reads (chars depth v) v.tokens := by
  induction h generalizing depth with
  | null => exact reads_null
  | bool b => exact reads_bool b
  | number h => exact reads_number h
  | string content => exact (opens_quoted content).continues.reads
  | @array items _ ih =>
      cases items with
      | nil => exact (opens_openArray.append opens_closeArray).continues.reads
      | cons v vs =>
          obtain ⟨hv, hvs⟩ := List.forall_mem_cons.1 ih
          have hopen := opens_openArray.append (opens_newLine (depth + 1))
          have hclose := (opens_newLine depth).append opens_closeArray
          have hitems := continues_itemChars fun v hv => hvs v hv (depth + 1)
          have harray := ((hopen.append_reads (hv (depth + 1))).append hitems).append
            hclose.continues
          rw [chars, tokens]
          simpa using harray.reads
  | @object members _ ih =>
      cases members with
      | nil => exact (opens_openObject.append opens_closeObject).continues.reads
      | cons m members =>
          obtain ⟨key, v⟩ := m
          obtain ⟨hv, hmembers⟩ := List.forall_mem_cons.1 ih
          have hopen := (opens_openObject.append (opens_newLine (depth + 1))).append (opens_key key)
          have hclose := (opens_newLine depth).append opens_closeObject
          have hrest := continues_memberChars fun m hm => hmembers m hm (depth + 1)
          have hobject := ((hopen.append_reads (hv (depth + 1))).append hrest).append
            hclose.continues
          rw [chars, tokens]
          simpa using hobject.reads

theorem tokens?_chars {v : Json} (h : v.Legible) : tokens? (chars 0 v) = some v.tokens := by
  obtain ⟨state, hstate, hends⟩ := reads_chars h 0 []
  rw [tokens?, hstate, Option.bind_some, hends.last, List.append_nil, List.reverse_reverse]

end AgentBlocks.Json
