import AgentBlocks.Proofs.Walk.Moment
import AgentBlocks.Proofs.Walk.Soundness

/-!
Every run of the generator ends. A run does step by step what a walk within a depth does, so it
comes to the outcome of that walk, and to refuse to go deeper than there are blocks changes nothing.
-/
namespace AgentBlocks

theorem except_map_map {ε α β γ : Type} (f : α → β) (g : β → γ) (x : Except ε α) :
    (x.map f).map g = x.map fun a => g (f a) := by
  cases x <;> rfl

theorem map_statement_injective {x y : Except GenerateError String}
    (h : x.map Phrase.statement = y.map Phrase.statement) : x = y := by
  cases x <;> cases y <;> cases h <;> rfl

/-- The moment with further tasks that wait for its own. -/
def Moment.before (m : Moment) (outer : List Task) : Moment := { m with tasks := m.tasks ++ outer }

namespace Surroundings

open Walk

variable (s : Surroundings)

/-- One moment leads to another, whatever waits for them. -/
def Leads (m m' : Moment) : Prop := ∀ outer, ∃ n, s.step^[n] (m.before outer) = m'.before outer

/-- A task comes to an answer and a trail. -/
def Replies (task : Task) (t : Trail) (outcome : Except GenerateError Phrase) (t' : Trail) : Prop :=
  ∀ begun, ∃ begun', s.Leads ⟨[task], none, t, begun⟩ ⟨[], some outcome, t', begun'⟩

def Runs (render : Block → BlockType → Walk Phrase) : Prop :=
  ∀ b type t outcome t', render b type t = some (outcome, t') → ∀ role id,
    s.Replies (.render role id b type (type.rule b s.registries)) t outcome (role.leave t')

variable {s} {m m' m'' : Moment} {t t₁ t' : Trail} {outcome : Except GenerateError Phrase}

theorem Leads.refl (m : Moment) : s.Leads m m := fun _ => ⟨0, rfl⟩

theorem Leads.trans (h : s.Leads m m') (h' : s.Leads m' m'') : s.Leads m m'' := by
  intro outer
  obtain ⟨n, hn⟩ := h outer
  obtain ⟨n', hn'⟩ := h' outer
  exact ⟨n' + n, by rw [Function.iterate_add_apply, hn, hn']⟩

theorem leads_of_step (h : ∀ outer, s.step (m.before outer) = m'.before outer) : s.Leads m m' :=
  fun outer => ⟨1, h outer⟩

theorem Leads.before (h : s.Leads m m') (inner : List Task) :
    s.Leads (m.before inner) (m'.before inner) := by
  intro outer
  obtain ⟨n, hn⟩ := h (inner ++ outer)
  exact ⟨n, by simpa only [Moment.before, List.append_assoc] using hn⟩

theorem Replies.before {called : Task} (h : s.Replies called t outcome t') (task : Task)
    (begun : List String) :
    ∃ begun', s.Leads ⟨[called, task], none, t, begun⟩ ⟨[task], some outcome, t', begun'⟩ := by
  obtain ⟨begun', hleads⟩ := h begun
  exact ⟨begun', hleads.before [task]⟩

section Ask

variable {task called : Task} {slot : Option Task} {text : Phrase → String} {default : String}
  {next : Except GenerateError String → Task}
  (hask : ∀ m, s.perform m task = m.ask task slot text default next)

include hask

theorem replies_of_ask_empty (hslot : slot = none)
    (hnext : s.Replies (next (.ok default)) t outcome t') : s.Replies task t outcome t' := by
  subst hslot
  intro begun
  obtain ⟨begun', hleads⟩ := hnext begun
  have hdefault : s.Leads ⟨[task], none, t, begun⟩ ⟨[next (.ok default)], none, t, begun⟩ :=
    leads_of_step fun outer => hask ⟨outer, none, t, begun⟩
  exact ⟨begun', hdefault.trans hleads⟩

theorem replies_of_ask_filled {answer : Except GenerateError Phrase} (hslot : slot = some called)
    (hcalled : s.Replies called t answer t₁)
    (hnext : s.Replies (next (answer.map text)) t₁ outcome t') : s.Replies task t outcome t' := by
  subst hslot
  intro begun
  obtain ⟨begun₁, hslot⟩ := hcalled.before task begun
  obtain ⟨begun', hleads⟩ := hnext begun₁
  have hcall : s.Leads ⟨[task], none, t, begun⟩ ⟨[called, task], none, t, begun⟩ :=
    leads_of_step fun outer => hask ⟨outer, none, t, begun⟩
  have hreturn : s.Leads ⟨[task], some answer, t₁, begun₁⟩
      ⟨[next (answer.map text)], none, t₁, begun₁⟩ :=
    leads_of_step fun outer => hask ⟨outer, some answer, t₁, begun₁⟩
  exact ⟨begun', hcall.trans (hslot.trans (hreturn.trans hleads))⟩

end Ask

def afterBlocks (last : Option String) (lines : List String) (t : Trail) (begun : List String) :
    Except GenerateError (List String) → Moment
  | .ok codes => ⟨[.chain last (lines ++ codes)], none, t, begun⟩
  | .error e => ⟨[], some (.error e), t, begun⟩

theorem append_consText (lines : List String) (code : String) (codes : List String) :
    lines ++ consText code [] ++ codes = lines ++ consText code codes := by
  unfold consText
  cases code.isEmpty <;> simp

theorem afterBlocks_consText {last : Option String} {lines begun : List String} (code : String)
    (result : Except GenerateError (List String)) :
    afterBlocks last (lines ++ consText code []) t begun result =
      afterBlocks last lines t begun (result.map (consText code)) := by
  cases result with
  | error e => rfl
  | ok codes => simp only [afterBlocks, Except.map, append_consText]

section Begin

variable {id : String} {b : Block} {type : BlockType} {lines begun : List String}
  (hfree : t.holds id = false)

include hfree

theorem leads_beginValue (hlookup : s.lookup id = .ok (b, type)) :
    s.Leads ⟨[.value id], none, t, begun⟩
      ⟨[.render .value id b type (type.rule b s.registries)], none, t.enter id, begun⟩ := by
  refine leads_of_step fun outer => ?_
  simp [step, perform, beginValue, Moment.before, Moment.call, hfree, hlookup]

theorem leads_beginStatement (hlookup : s.lookup id = .ok (b, type)) :
    s.Leads ⟨[.chain (some id) lines], none, t, begun⟩
      ⟨[.render .chain id b type (type.rule b s.registries), .chain b.next lines], none, t.place id,
        id :: begun⟩ := by
  refine leads_of_step fun outer => ?_
  simp [step, perform, Moment.takeIn, beginStatement, Moment.before, Moment.call, hfree, hlookup]

end Begin

section Render

variable {render : Block → BlockType → Walk Phrase} (hrender : s.Runs render)

include hrender

theorem replies_walkValue {id : String} {result : Except GenerateError (String × Precedence)}
    (h : s.walkValue render id t = some (result, t')) :
    ∃ outcome, result = outcome.map (fun phrase => (phrase.code, phrase.precedence)) ∧
      s.Replies (.value id) t outcome t' := by
  cases hheld : t.holds id with
  | true =>
      rw [walkValue_of_held hheld] at h
      cases h
      refine ⟨.error (.cyclicGraph id), rfl, fun begun => ⟨begun, leads_of_step fun outer => ?_⟩⟩
      simp [step, perform, beginValue, Moment.before, Moment.reply, hheld]
  | false =>
      cases hlookup : s.lookup id with
      | error e =>
          rw [walkValue_of_unknown hheld hlookup] at h
          cases h
          refine ⟨.error e, rfl, fun begun => ⟨begun, leads_of_step fun outer => ?_⟩⟩
          simp [step, perform, beginValue, Moment.before, Moment.reply, hheld, hlookup]
      | ok found =>
          obtain ⟨b, type⟩ := found
          rw [walkValue_of_free hheld hlookup, Option.map_eq_some_iff] at h
          obtain ⟨⟨outcome, t₁⟩, hrendered, heq⟩ := h
          cases heq
          refine ⟨outcome, rfl, fun begun => ?_⟩
          obtain ⟨begun', hleads⟩ := hrender b type _ _ _ hrendered .value id begun
          exact ⟨begun', (leads_beginValue hheld hlookup).trans hleads⟩

theorem leads_walkBlocks_of_free {id : String} {b : Block} {type : BlockType}
    {last : Option String} {rest : List String} (hfree : t.holds id = false)
    (hlookup : s.lookup id = .ok (b, type))
    (hrest : ∀ {t result}, s.walkBlocks render rest t = some (result, t') → ∀ lines begun, ∃ begun',
      s.Leads ⟨[.chain b.next lines], none, t, begun⟩ (afterBlocks last lines t' begun' result))
    {result : Except GenerateError (List String)}
    (h : s.walkBlocks render (id :: rest) t = some (result, t')) (lines begun : List String) :
    ∃ begun', s.Leads ⟨[.chain (some id) lines], none, t, begun⟩
      (afterBlocks last lines t' begun' result) := by
  have hbegin : s.Leads ⟨[.chain (some id) lines], none, t, begun⟩ _ :=
    leads_beginStatement hfree hlookup
  rw [walkBlocks_of_free hfree hlookup] at h
  rcases bind_eq_some.1 h with ⟨e, hrendered, rfl⟩ | ⟨phrase, t₁, hrendered, h⟩
  · obtain ⟨begun', hblock⟩ := (hrender b type _ _ _ hrendered .chain id).before
      (.chain b.next lines) (id :: begun)
    exact ⟨begun', hbegin.trans (hblock.trans (leads_of_step fun _ => rfl))⟩
  · obtain ⟨begun₁, hblock⟩ := (hrender b type _ _ _ hrendered .chain id).before
      (.chain b.next lines) (id :: begun)
    have htakeIn : s.Leads ⟨[.chain b.next lines], some (.ok phrase), t₁, begun₁⟩
        ⟨[.chain b.next (lines ++ consText phrase.code [])], none, t₁, begun₁⟩ :=
      leads_of_step fun _ => rfl
    obtain ⟨result', hwalk, rfl⟩ := bind_pure_eq_some.1 h
    obtain ⟨begun', hleads⟩ := hrest hwalk (lines ++ consText phrase.code []) begun₁
    rw [afterBlocks_consText] at hleads
    exact ⟨begun', hbegin.trans (hblock.trans (htakeIn.trans hleads))⟩

/-- The run does not know the list of the blocks beforehand: it goes from block to block. -/
theorem leads_walkBlocks {first last : Option String} {ids : List String}
    (hsegment : s.workspace.Segment first ids last) {result : Except GenerateError (List String)}
    (h : s.walkBlocks render ids t = some (result, t')) (lines begun : List String) :
    ∃ begun', s.Leads ⟨[.chain first lines], none, t, begun⟩
      (afterBlocks last lines t' begun' result) := by
  induction hsegment generalizing t result lines begun with
  | nil last =>
      cases h
      refine ⟨begun, ?_⟩
      rw [afterBlocks, List.append_nil]
      exact .refl _
  | @cons id ids last hrest ih =>
      cases hheld : t.holds id with
      | true =>
          rw [walkBlocks_of_held hheld] at h
          cases h
          refine ⟨begun, leads_of_step fun outer => ?_⟩
          simp [step, perform, Moment.takeIn, beginStatement, afterBlocks, Moment.before,
            Moment.reply, hheld]
      | false =>
          cases hlookup : s.lookup id with
          | error e =>
              rw [walkBlocks_of_unknown hheld hlookup] at h
              cases h
              refine ⟨begun, leads_of_step fun outer => ?_⟩
              simp [step, perform, Moment.takeIn, beginStatement, afterBlocks, Moment.before,
                Moment.reply, hheld, hlookup]
          | ok found =>
              rw [(s.lookup_eq_ok.1 hlookup).1, Option.bind_some] at ih
              exact leads_walkBlocks_of_free hrender hheld hlookup ih h lines begun

variable (hkeeps : ∀ b type, (render b type).Keeps)
include hkeeps

theorem replies_walkChain {head : String} {result : Except GenerateError String}
    (h : s.walkChain render head t = some (result, t')) :
    s.Replies (.chain (some head) []) t (result.map .statement) t' := by
  intro begun
  obtain ⟨result', hblocks, rfl⟩ := bind_pure_eq_some.1 h
  obtain ⟨last, hsegment, hlast⟩ := s.workspace.segment_chainIds head
  obtain ⟨begun', hleads⟩ := leads_walkBlocks hrender hsegment hblocks [] begun
  refine ⟨begun', ?_⟩
  cases result' with
  | error e => exact hleads
  | ok codes =>
      -- a chain that was cut would have more blocks than there are
      obtain ⟨hnodup, hids⟩ := distinct_of_walkBlocks hkeeps hblocks
      obtain rfl := hlast hnodup fun id hid => (hids id hid).2
      exact hleads.trans (leads_of_step fun _ => rfl)

theorem replies_runRule {b : Block} {type : BlockType} {rule : Rule}
    (h : s.runRule b type (s.walkValue render) (s.walkChain render) rule t = some (outcome, t'))
    (role : Role) (id : String) :
    s.Replies (.render role id b type rule) t outcome (role.leave t') := by
  induction rule generalizing t with
  | done result =>
      cases h
      exact fun begun => ⟨begun, leads_of_step fun _ => rfl⟩
  | value slot bound next ih =>
      have hask := s.perform_value role id b type slot bound next
      rcases runRule_value_eq_some h with ⟨hslot, hrest⟩ | ⟨child, result, t₁, hslot, hwalk, hrest⟩
      · exact replies_of_ask_empty hask (Option.map_eq_none_iff.2 hslot) (ih _ hrest)
      · obtain ⟨answer, rfl, hvalue⟩ := replies_walkValue hrender hwalk
        rw [except_map_map] at hrest
        exact replies_of_ask_filled hask (Option.map_eq_some_iff.2 ⟨child, hslot, rfl⟩) hvalue
          (ih _ hrest)
  | statements slot next ih =>
      have hask := s.perform_statements role id b type slot next
      rcases runRule_statements_eq_some h with
        ⟨hslot, hrest⟩ | ⟨head, body, t₁, hslot, hwalk, hrest⟩
      · exact replies_of_ask_empty hask (Option.map_eq_none_iff.2 hslot) (ih _ hrest)
      · have hchain := replies_walkChain hrender hkeeps hwalk
        refine replies_of_ask_filled hask (Option.map_eq_some_iff.2 ⟨head, hslot, rfl⟩) hchain ?_
        rw [except_map_map]
        exact ih _ hrest

end Render

theorem runs_render (depth : Nat) : s.Runs (s.render depth) := by
  induction depth with
  | zero =>
      intro b type t outcome t' h
      cases h
  | succ depth ih =>
      intro b type t outcome t' h role id
      exact replies_runRule ih (s.keeps_render depth) h role id

theorem replies_walkHeads {depth : Nat} {heads : List String}
    {result : Except GenerateError (List String)}
    (h : s.walkHeads depth heads t = some (result, t')) (sections : List String) :
    s.Replies (.heads heads sections) t
      (result.map fun codes => .statement ("\n\n".intercalate (sections ++ codes))) t' := by
  induction heads generalizing t result sections with
  | nil =>
      cases h
      refine fun begun => ⟨begun, leads_of_step fun outer => ?_⟩
      simp [step, perform, Moment.takeIn, Moment.before, Moment.reply, Except.map]
  | cons head rest ih =>
      intro begun
      have hcall : s.Leads ⟨[.heads (head :: rest) sections], none, t, begun⟩
          ⟨[.chain (some head) [], .heads rest sections], none, t, begun⟩ :=
        leads_of_step fun _ => rfl
      have hreplies {code t₁} (hchain : s.walkChain (s.render depth) head t = some (code, t₁)) :=
        (replies_walkChain (runs_render depth) (s.keeps_render depth) hchain).before
          (.heads rest sections) begun
      rcases bind_eq_some.1 h with ⟨e, hchain, rfl⟩ | ⟨code, t₁, hchain, hrest⟩
      · obtain ⟨begun', hleads⟩ := hreplies hchain
        exact ⟨begun', hcall.trans (hleads.trans (leads_of_step fun _ => rfl))⟩
      · obtain ⟨begun₁, hleads⟩ := hreplies hchain
        have htakeIn : s.Leads ⟨[.heads rest sections], some (.ok (.statement code)), t₁, begun₁⟩
            ⟨[.heads rest (sections ++ consText code [])], none, t₁, begun₁⟩ :=
          leads_of_step fun _ => rfl
        obtain ⟨result', hwalk, rfl⟩ := bind_pure_eq_some.1 hrest
        obtain ⟨begun', hrest⟩ := ih hwalk (sections ++ consText code []) begun₁
        simp only [append_consText] at hrest
        rw [except_map_map]
        exact ⟨begun', hcall.trans (hleads.trans (htakeIn.trans hrest))⟩

theorem iterate_of_ended (hended : m.tasks = []) (n : Nat) : s.step^[n] m = m := by
  refine Function.iterate_fixed ?_ n
  simp only [step, hended]

theorem iterate_eq_of_ended {n n' : Nat} (h : (s.step^[n] m).tasks = [])
    (h' : (s.step^[n'] m).tasks = []) : s.step^[n] m = s.step^[n'] m := by
  rw [← iterate_of_ended h n', ← iterate_of_ended h' n, ← Function.iterate_add_apply,
    ← Function.iterate_add_apply, Nat.add_comm]

end Surroundings

section Moments

variable (c : Catalog) (options : GenerateOptions) (w : Workspace) (r : Registries)

theorem ended_of_generateWithin {depth : Nat} (hdepth : w.size ≤ depth) :
    ∃ n outcome, (momentAfter c options w r n).tasks = [] ∧
      (momentAfter c options w r n).answer = some (outcome.map .statement) ∧
      generateWithin depth c options w r = some outcome := by
  obtain ⟨result, t, hwalk, hgenerate⟩ := generateWithin_eq_map c options r hdepth
  obtain ⟨begun, hleads⟩ := Surroundings.replies_walkHeads hwalk
    (if options.includeDeclarations then r.declarations else []) []
  obtain ⟨n, hn⟩ := hleads []
  refine ⟨n, _, congrArg Moment.tasks hn, ?_, hgenerate⟩
  rw [except_map_map]
  exact congrArg Moment.answer hn

theorem ended_of_generate :
    ∃ n, (momentAfter c options w r n).tasks = [] ∧
      (momentAfter c options w r n).answer = some ((generate c options w r).map .statement) := by
  obtain ⟨n, outcome, hended, hanswer, heq⟩ :=
    ended_of_generateWithin c options w r (Nat.le_refl w.size)
  refine ⟨n, hended, ?_⟩
  rw [hanswer, generate, heq, Option.getD_some]

/-- A depth of as many blocks as there are gives what any greater one gives. -/
theorem generateWithin_eq_generate {depth : Nat} (hdepth : w.size ≤ depth) :
    generateWithin depth c options w r = some (generate c options w r) := by
  obtain ⟨n, outcome, hended, hanswer, heq⟩ := ended_of_generateWithin c options w r hdepth
  obtain ⟨n', hended', hanswer'⟩ := ended_of_generate c options w r
  have hsame : momentAfter c options w r n = momentAfter c options w r n' :=
    Surroundings.iterate_eq_of_ended hended hended'
  rw [hsame, hanswer', Option.some_inj] at hanswer
  rw [heq, map_statement_injective hanswer]

/-- Every run comes to the outcome of the generator, whatever the catalog and the graph. At every
moment of it the blocks that are being rendered are different ones, so no more than all blocks are
rendered one inside the other, and the chains of the whole run render no more than all blocks. To
refuse to render deeper than that changes nothing. -/
theorem generation_ends :
    (∃ n, (momentAfter c options w r n).tasks = [] ∧
      (momentAfter c options w r n).answer = some ((generate c options w r).map .statement)) ∧
    (∀ n, ((momentAfter c options w r n).inProgress.map (·.2)).Nodup ∧
      (momentAfter c options w r n).inProgress.length ≤ w.size ∧
      (momentAfter c options w r n).begun.Nodup ∧
      (momentAfter c options w r n).begun.length ≤ w.size) ∧
    ∀ depth, w.size ≤ depth →
      generateWithin depth c options w r = some (generate c options w r) := by
  refine ⟨ended_of_generate c options w r, fun n => ?_, fun depth hdepth => ?_⟩
  · have hfits := fits_momentAfter c options w r n
    have hbegun := Workspace.length_le_size hfits.begun_nodup hfits.begun_known
    exact ⟨hfits.nodup, hfits.length_le_size, hfits.begun_nodup, hbegun⟩
  · exact generateWithin_eq_generate c options w r hdepth

end Moments

end AgentBlocks
