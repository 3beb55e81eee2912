import PeakcodeDaemon.Invocations
import PeakcodeDaemon.TurnAuthority

/-!
# One handle per invocation

Each invocation of a turn is a job under the provider's id, with a handle
of its own from when it was asked for or first mapped. The map of call ids
is to hold the handle of the first open job with each id. It does as long
as no approval takes over an id that an event in the channel still has;
then the `NeedsApproval`, the `ToolStart` and the `ToolResult` of an
invocation carry one handle, and no other invocation carries it.

- **what the agents have begun** (`Agents`): the jobs of each turn are the
  invocations its acts spell, and a call that is to be named asks for the
  last of them (`Agents.awaiting`).
- **which handles are out** (`Marks`): what was sent, and what is held,
  shows the handle its job was given. An event that is mapped either has
  the handle of its job (`Marks.again`) or gives it a fresh one
  (`Marks.fill`).
- **the map follows** (`Assigned`, `Assigned.step`): while a turn is
  active the map is `Tabled` for its open jobs. The three steps that
  matter are naming a call (`Assigned.name`), mapping a `ToolStart`
  (`Assigned.holdStart`) and mapping a `ToolResult`
  (`Assigned.holdResult`); everything else is a frame.

The condition `vacant` is used in `Assigned.name` and nowhere else. Where
it fails, `buffered_id_taken_over` has a run in which the events of one
invocation go out under the handle of another.
-/

namespace PeakcodeDaemon

namespace Worker

open JobTable

variable {Message : Type} {setup : Setup Message} {tr os : List (Obs Message)} {log : Log Message}
  {s s' : Worker Message} {a : Action Message} {turn : Nat} {act : ToolAct}
  {jobs jobs' : Nat → List (Job Text Text)}

/-! ## What the agents have begun -/

/-- The calls of `approve` that are under way in the worker. -/
theorem Step.busy_later (h : Step setup s a s' os)
    (hunborn : ∀ c, s.approver.nextToken ≤ c → s.approver.calls c = none) {c : Nat}
    {call' : ApproveCall} (hbusy : s'.approver.Busy c call') :
    (∃ call, s.approver.Busy c call ∧ RemoteApprover.Later call call') ∨
    ∃ turn providerCallId tool arguments,
      a = .call (.request turn providerCallId tool arguments) ∧ c = s.approver.nextToken ∧
        call' = ⟨turn, providerCallId, tool, arguments, .fetched, none⟩ := by
  cases h with
  | @approve callId decision hpc =>
      rcases (RemoteApprover.resolve_step s.approver callId decision).busy_later hunborn hbusy with
        hold | ⟨_, _, _, _, ha, -⟩
      · exact Or.inl hold
      · cases ha
  | call hallows hcalled =>
      rcases (RemoteApprover.step_cases hcalled).busy_later hunborn hbusy with
        hold | ⟨turn, providerCallId, tool, arguments, rfl, hc, hcall'⟩
      · exact Or.inl hold
      · exact Or.inr ⟨turn, providerCallId, tool, arguments, rfl, hc, hcall'⟩
  | @name c₁ handle call hcall hstage | @notify c₁ handle call hcall hstage =>
      rcases RemoteApprover.setStage_calls hbusy.1 with ⟨rfl, rfl⟩ | ⟨-, hold⟩
      · exact Or.inl ⟨call, ⟨hcall, by rw [hstage]; rfl⟩, rfl, rfl, fun h => by cases h⟩
      · exact Or.inl ⟨call', ⟨hold, hbusy.2⟩, .refl call'⟩
  | joinTurn hpc houtcome =>
      rw [join_approver] at hbusy
      exact Or.inl ⟨call', hbusy, .refl call'⟩
  | _ => exact Or.inl ⟨call', hbusy, .refl call'⟩

/-- What is emitted in a step. -/
theorem Step.emitted_cases (h : Step setup s a s' os) (turn : Nat) :
    emitted turn os = [] ∨ ∃ event, a = .emit turn event ∧ emitted turn os = [event] := by
  cases h with
  | @emit turn' event hturn hopen =>
      by_cases heq : turn' = turn
      · subst heq
        exact Or.inr ⟨event, rfl, by simp [emitted, program, programItem?, Item.core?]⟩
      · exact Or.inl (by simp [emitted, program, programItem?, heq])
  | approve hpc => exact Or.inl (emitted_map_approver _ turn)
  | call hallows hcalled => exact Or.inl (emitted_map_approver _ turn)
  | name hcall hstage => exact Or.inl (emitted_asked _ _ _ turn)
  | holdEvent hpc hactive hpending hevents ha =>
      exact Or.inl (congrArg (List.filterMap Item.core?) (program_map_drew turn _))
  | _ => exact Or.inl rfl

/-- The events of invocations that a step emits. -/
theorem Step.tools_emitted (h : Step setup s a s' os) (turn : Nat) :
    tools (emitted turn os) = [] ∨
      ∃ event act, a = .emit turn event ∧ event.toolAct? = some act ∧
      tools (emitted turn os) = [act] := by
  rcases h.emitted_cases turn with hnone | ⟨event, rfl, hone⟩
  · exact Or.inl (by rw [hnone]; rfl)
  · cases hact : event.toolAct? with
    | none => exact Or.inl (by rw [hone]; exact List.filterMap_cons_none hact)
    | some act =>
        exact Or.inr ⟨event, act, rfl, hact, by rw [hone]; exact List.filterMap_cons_some hact⟩

theorem Step.tools_emitted_other (h : Step setup s a s' os)
    (hact : ∀ act, toolAct? a ≠ some (turn, act)) : tools (emitted turn os) = [] := by
  rcases h.tools_emitted turn with hnone | ⟨event, act, rfl, hevent, -⟩
  · exact hnone
  · exact absurd (by rw [toolAct?, hevent]; rfl) (hact act)

theorem Step.tools_emitted_act (h : Step setup s a s' os) (hact : toolAct? a = some (turn, act)) :
    tools (emitted turn os) = act.emitted := by
  rcases h.emitted_cases turn with hnone | ⟨event, rfl, hone⟩
  · rw [hnone]
    cases h with
    | emit hturn hopen =>
        obtain ⟨act', -, heq⟩ := Option.map_eq_some_iff.mp hact
        obtain ⟨rfl, -⟩ := Prod.mk.inj heq
        simp [emitted, program, programItem?, Item.core?] at hnone
    | @call action approver os hallows hcalled =>
        cases action with
        | request turn' providerCallId tool arguments =>
            obtain ⟨-, rfl⟩ := Prod.mk.inj (Option.some.inj hact)
            rfl
        | _ => cases hact
    | holdEvent hpc hactive hpending hevents ha => rcases ha with rfl | rfl <;> cases hact
    | _ => cases hact
  · obtain ⟨act', hevent, heq⟩ := Option.map_eq_some_iff.mp hact
    obtain ⟨-, rfl⟩ := Prod.mk.inj heq
    rw [hone, tools, List.filterMap_cons_some hevent]
    cases event with
    | toolStart | toolResult =>
        obtain rfl := Option.some.inj hevent
        rfl
    | _ => cases hevent

/-- The jobs of a turn are the invocations its agent has begun. -/
def Spelled (log : Log Message) (turn : Nat) (own : List (Job Text Text)) : Prop :=
  ∃ phase, invoking turn log = some phase ∧
    phase.Spells (own.map Prod.fst) (tools (emitted turn (observed log)))

theorem Spelled.other {own : List (Job Text Text)} (h : Spelled log turn own)
    (hact : ∀ act, toolAct? a ≠ some (turn, act)) (hstep : Step setup s a s' os) :
    Spelled (log ++ .inl a :: os.map .inr) turn own := by
  obtain ⟨phase, hphase, hspells⟩ := h
  refine ⟨phase, (invoking_other hact log os).trans hphase, ?_⟩
  rwa [observed_append, emitted_append, tools_append, hstep.tools_emitted_other hact,
    List.append_nil]

/-- The agent goes on, and may begin an invocation. -/
theorem Spelled.proceed {own : List (Job Text Text)} {phase phase' : Invoking}
    (h : Spelled log turn own)
    (hact : toolAct? a = some (turn, act)) (hphase : invoking turn log = some phase)
    (hnext : phase.next act = some phase') (hstep : Step setup s a s' os) :
    Spelled (log ++ .inl a :: os.map .inr) turn (own ++ opened (phase.begun act)) := by
  obtain ⟨phase₁, hphase₁, hspells⟩ := h
  obtain rfl := Option.some.inj (hphase.symm.trans hphase₁)
  refine ⟨phase', ?_, ?_⟩
  · rw [invoking_act hact, hphase]
    exact hnext
  · have hids : (own ++ opened (phase.begun act)).map Prod.fst =
        own.map Prod.fst ++ phase.begun act := by
      rw [List.map_append, opened, List.map_map]
      exact congrArg _ (List.map_id _)
    rw [hids, observed_append, emitted_append, tools_append, hstep.tools_emitted_act hact]
    exact hspells.next hnext

/-- What the agents have begun, and the calls of `approve` they await. -/
structure Agents (log : Log Message) (s : Worker Message) (jobs : Nat → List (Job Text Text)) :
    Prop where
  spelled : ∀ turn, Spelled log turn (jobs turn)
  unstarted : ∀ turn, s.nextTurn ≤ turn → jobs turn = []
  asking : ∀ c call, s.approver.Busy c call →
    invoking call.turn log = some (.asked call.providerCallId)
  one : ∀ c c' call call', s.approver.Busy c call → s.approver.Busy c' call' →
    call.turn = call'.turn → c = c'
  unnamed : ∀ c call, s.approver.Busy c call → call.stage.handle? = none →
    ∃ before, jobs call.turn = before ++ [(call.providerCallId, none)]

theorem Agents.start (setup : Setup Message) : Agents [] (new setup) fun _ => [] where
  spelled := fun _ => ⟨.between, rfl, .between []⟩
  unstarted := fun _ _ => rfl
  asking := fun _ _ h => by cases h.1
  one := fun _ _ _ _ h => by cases h.1
  unnamed := fun _ _ h => by cases h.1

/-- No agent acts. -/
theorem Agents.frame (h : Agents log s jobs) (hstep : Step setup s a s' os)
    (hunborn : ∀ c, s.approver.nextToken ≤ c → s.approver.calls c = none)
    (hact : toolAct? a = none) : Agents (log ++ .inl a :: os.map .inr) s' jobs := by
  have hother : ∀ turn act, toolAct? a ≠ some (turn, act) := by
    rw [hact]
    simp
  have hbusy : ∀ {c call'}, s'.approver.Busy c call' →
      ∃ call, s.approver.Busy c call ∧ RemoteApprover.Later call call' := by
    intro c call' hcall'
    rcases hstep.busy_later hunborn hcall' with hold | ⟨_, _, _, _, rfl, -⟩
    · exact hold
    · cases hact
  refine ⟨?_, ?_, ?_, ?_, ?_⟩
  · exact fun turn => (h.spelled turn).other (hother turn) hstep
  · exact fun turn hturn => h.unstarted turn (Nat.le_trans hstep.nextTurn_le hturn)
  · intro c call' hcall'
    obtain ⟨call, hcall, hlater⟩ := hbusy hcall'
    rw [hlater.turn, hlater.providerCallId, invoking_other (hother _)]
    exact h.asking c call hcall
  · intro c c' call₁ call₂ hcall₁ hcall₂ hturn
    obtain ⟨call, hcall, hlater⟩ := hbusy hcall₁
    obtain ⟨call', hcall', hlater'⟩ := hbusy hcall₂
    exact h.one c c' call call' hcall hcall' (by rw [← hlater.turn, hturn, hlater'.turn])
  · intro c call' hcall' hnone
    obtain ⟨call, hcall, hlater⟩ := hbusy hcall'
    rw [hlater.turn, hlater.providerCallId]
    exact h.unnamed c call hcall (hlater.unnamed hnone)

/-- Handles are given. -/
theorem Agents.given (h : Agents log s jobs)
    (hids : ∀ turn, (jobs' turn).map Prod.fst = (jobs turn).map Prod.fst)
    (hunnamed : ∀ c call, s.approver.Busy c call → call.stage.handle? = none →
      ∃ before, jobs' call.turn = before ++ [(call.providerCallId, none)]) :
      Agents log s jobs' where
  spelled := by
    intro turn
    rw [Spelled, hids]
    exact h.spelled turn
  unstarted := by
    intro turn hturn
    have hnil := hids turn
    rw [h.unstarted turn hturn] at hnil
    exact List.map_eq_nil_iff.mp hnil
  asking := h.asking
  one := h.one
  unnamed := hunnamed

/-- An agent that acts was started, and none of its calls is under way. -/
theorem Step.acting (h : Step setup s a s' os)
    (hunborn : ∀ c, s.approver.nextToken ≤ c → s.approver.calls c = none)
    (hact : toolAct? a = some (turn, act)) (hawaits : awaits s a = true) :
    turn < s.nextTurn ∧ ∀ c call, s.approver.Busy c call → call.turn ≠ turn := by
  cases h with
  | @emit turn' event hturn hopen =>
      obtain ⟨act', -, heq⟩ := Option.map_eq_some_iff.mp hact
      obtain ⟨rfl, -⟩ := Prod.mk.inj heq
      exact ⟨hturn, fun _ _ hbusy => RemoteApprover.turn_ne_of_callsEnded hunborn hawaits hbusy⟩
  | @call action approver os hallows hcalled =>
      cases action with
      | request turn' providerCallId tool arguments =>
          obtain ⟨rfl, -⟩ := Prod.mk.inj (Option.some.inj hact)
          have hended : s.approver.callsEnded turn' = true := by
            simp only [awaits, Bool.and_eq_true] at hawaits
            exact hawaits.1.1
          exact ⟨hallows, fun _ _ hbusy =>
            RemoteApprover.turn_ne_of_callsEnded hunborn hended hbusy⟩
      | _ => cases hact
  | holdEvent hpc hactive hpending hevents ha => rcases ha with rfl | rfl <;> cases hact
  | _ => cases hact

/-- The agent of a turn acts. -/
theorem Agents.proceed (h : Agents log s jobs) (hstep : Step setup s a s' os)
    (hunborn : ∀ c, s.approver.nextToken ≤ c → s.approver.calls c = none)
    (hact : toolAct? a = some (turn, act)) (hawaits : awaits s a = true)
    {phase phase' : Invoking} (hphase : invoking turn log = some phase)
    (hnext : phase.next act = some phase') : Agents (log ++ .inl a :: os.map .inr) s'
      (Function.update jobs turn (jobs turn ++ opened (phase.begun act))) := by
  obtain ⟨hturn, hquiet⟩ := hstep.acting hunborn hact hawaits
  have hother : ∀ {turn'}, turn' ≠ turn → ∀ act', toolAct? a ≠ some (turn', act') := by
    intro turn' hne act' heq
    exact hne (Prod.mk.inj (Option.some.inj (heq.symm.trans hact))).1
  -- a call that is new is the one requested
  have hbusy : ∀ {c call'}, s'.approver.Busy c call' →
      (∃ call, s.approver.Busy c call ∧ RemoteApprover.Later call call' ∧ call'.turn ≠ turn) ∨
      c = s.approver.nextToken ∧ act = .approve call'.providerCallId ∧ call'.turn = turn := by
    intro c call' hcall'
    rcases hstep.busy_later hunborn hcall' with
      ⟨call, hcall, hlater⟩ | ⟨turn', providerCallId, _, _, rfl, rfl, rfl⟩
    · exact Or.inl ⟨call, hcall, hlater, by rw [hlater.turn]; exact hquiet c call hcall⟩
    · obtain ⟨rfl, rfl⟩ := Prod.mk.inj (Option.some.inj hact)
      exact Or.inr ⟨rfl, rfl, rfl⟩
  refine ⟨?_, ?_, ?_, ?_, ?_⟩
  · intro turn'
    by_cases hne : turn' = turn
    · subst hne
      rw [Function.update_self]
      exact (h.spelled turn').proceed hact hphase hnext hstep
    · rw [Function.update_of_ne hne]
      exact (h.spelled turn').other (hother hne) hstep
  · intro turn' hle
    have hle : s.nextTurn ≤ turn' := Nat.le_trans hstep.nextTurn_le hle
    rw [Function.update_of_ne (by omega)]
    exact h.unstarted turn' hle
  · intro c call' hcall'
    rcases hbusy hcall' with ⟨call, hcall, hlater, hne⟩ | ⟨-, rfl, hcallTurn⟩
    · rw [invoking_other (hother hne), hlater.turn, hlater.providerCallId]
      exact h.asking c call hcall
    · rw [hcallTurn, invoking_act hact, hphase]
      cases phase with
      | between => rfl
      | asked id => cases hnext
      | started id => cases hnext
  · intro c c' call₁ call₂ hcall₁ hcall₂ hsame
    rcases hbusy hcall₁ with ⟨call, hcall, hlater, hne⟩ | ⟨rfl, -, hcallTurn⟩
    · rcases hbusy hcall₂ with ⟨call', hcall', hlater', -⟩ | ⟨-, -, hcallTurn'⟩
      · exact h.one c c' call call' hcall hcall' (by rw [← hlater.turn, hsame, hlater'.turn])
      · exact absurd (hsame.trans hcallTurn') hne
    · rcases hbusy hcall₂ with ⟨-, -, -, hne⟩ | ⟨rfl, -, -⟩
      · exact absurd (hsame.symm.trans hcallTurn) hne
      · rfl
  · intro c call' hcall' hnone
    rcases hbusy hcall' with ⟨call, hcall, hlater, hne⟩ | ⟨-, rfl, rfl⟩
    · rw [Function.update_of_ne hne, hlater.turn, hlater.providerCallId]
      exact h.unnamed c call hcall (hlater.unnamed hnone)
    · rw [Function.update_self]
      refine ⟨jobs call'.turn, ?_⟩
      cases phase with
      | between => rfl
      | asked id => cases hnext
      | started id => cases hnext

/-! ## Which handles are out -/

/-- What is held shows as it will when it is sent. -/
def heldMark (tr : List (Obs Message)) (held : Option Held) : Option (Nat × Nat × Text) :=
  held.bind fun held => carried tr (.enqueued held)

/-- The `i`th invocation of the turn has the handle in one of its events,
sent or held. -/
def Marked (tr : List (Obs Message)) (s : Worker Message) (turn i : Nat) (handle : Text) : Prop :=
  Carries tr turn i handle ∨ heldMark tr s.pendingEvent = some (turn, i, handle)

/-- The handles the invocations were given are those their events have. -/
structure Marks (tr : List (Obs Message)) (s : Worker Message) (given : Nat → Nat → Option Text) :
    Prop where
  marked : ∀ turn i handle, Marked tr s turn i handle ↔ given turn i = some handle
  distinct : ∀ turn i turn' i' handle, given turn i = some handle → given turn' i' = some handle →
    turn = turn' ∧ i = i'
  issued : ∀ turn i handle, given turn i = some handle → handle ∈ drawn tr

variable {given given' : Nat → Nat → Option Text}

theorem Marks.start (setup : Setup Message) : Marks [] (new setup) fun _ _ => none where
  marked := by
    intro turn i handle
    refine iff_of_false ?_ (by simp)
    rintro (h | h)
    · exact not_sometime_nil _ h
    · cases h
  distinct := fun _ _ _ _ _ h => by cases h
  issued := fun _ _ _ h => by cases h

theorem Marks.oneHandle (h : Marks tr s given) : OneHandle tr := by
  intro turn i handle turn' i' handle' hcarries hcarries'
  have hgiven := (h.marked turn i handle).mp (Or.inl hcarries)
  have hgiven' := (h.marked turn' i' handle').mp (Or.inl hcarries')
  constructor
  · rintro rfl
    exact h.distinct _ _ _ _ _ hgiven hgiven'
  · rintro ⟨rfl, rfl⟩
    exact Option.some.inj (hgiven.symm.trans hgiven')

/-- Where an event that is sent stands among its turn's is settled before. -/
theorem heldMark_append (hsent : ∀ turn, sent turn os = []) (held : Option Held) :
    heldMark (tr ++ os) held = heldMark tr held := by
  cases held with
  | none => rfl
  | some held => simp [heldMark, carried, hsent]

theorem carries_append_silent (hos : ∀ o ∈ os, ∀ past, carried past o = none) {i : Nat}
    {handle : Text} :
    Carries (tr ++ os) turn i handle ↔ Carries tr turn i handle := by
  rw [Carries.append_iff]
  refine or_iff_left (not_sometime_of_mem fun o ho past hcarried => ?_)
  cases (hos o ho _).symm.trans hcarried

/-- Nothing is sent, asked or mapped that is of an invocation. -/
theorem Marks.frame (h : Marks tr s given) (hos : ∀ o ∈ os, ∀ past, carried past o = none)
    (hsent : ∀ turn, sent turn os = [])
    (hheld : heldMark tr s'.pendingEvent = heldMark tr s.pendingEvent) :
    Marks (tr ++ os) s' given where
  marked := by
    intro turn i handle
    rw [Marked, carries_append_silent hos, heldMark_append hsent, hheld]
    exact h.marked turn i handle
  distinct := h.distinct
  issued := fun turn i handle hgiven => mem_drawn_left (h.issued turn i handle hgiven)

/-- What was held is sent. -/
theorem Marks.enqueue (h : Marks tr s given) {held : Held} (hpending : s.pendingEvent = some held) :
    Marks (tr ++ (s.enqueue held).2) (s.enqueue held).1 given where
  marked := by
    intro turn i handle
    rw [Marked, Carries.append_iff, ← h.marked turn i handle, Marked, hpending]
    have hsent : Sometime (fun past o => carried (tr ++ past) o = some (turn, i, handle))
        (s.enqueue held).2 ↔ carried tr (.enqueued held : Obs Message) =
        some (turn, i, handle) := by
      rw [Worker.enqueue, sometime_cons, List.append_nil]
      exact or_iff_left (not_sometime_nil _)
    rw [hsent]
    exact or_iff_left fun hheld => by cases hheld
  distinct := h.distinct
  issued := fun turn i handle hgiven => mem_drawn_left (h.issued turn i handle hgiven)

section

variable {i : Nat} {handle : Text}

/-- An event is mapped to the handle its invocation has. -/
theorem Marks.again (h : Marks tr s given) (hgiven : given turn i = some handle)
    (hmarked : ∀ turn' i' handle', Marked (tr ++ os) s' turn' i' handle' ↔
      Marked tr s turn' i' handle' ∨ (turn, i, handle) = (turn', i', handle')) :
    Marks (tr ++ os) s' given where
  marked := by
    intro turn' i' handle'
    rw [hmarked, h.marked]
    refine or_iff_left_of_imp fun heq => ?_
    cases heq
    exact hgiven
  distinct := h.distinct
  issued := fun turn' i' handle' hgiven' => mem_drawn_left (h.issued turn' i' handle' hgiven')

/-- An invocation is given a handle that is fresh. -/
theorem Marks.give (h : Marks tr s given) (hnone : given turn i = none) (hfresh : handle ∉ drawn tr)
    (hdrawn : handle ∈ drawn (tr ++ os))
    (hself : given' turn i = some handle)
    (hother : ∀ turn' i', ¬(turn' = turn ∧ i' = i) → given' turn' i' = given turn' i')
    (hmarked : ∀ turn' i' handle', Marked (tr ++ os) s' turn' i' handle' ↔
      Marked tr s turn' i' handle' ∨ (turn, i, handle) = (turn', i', handle')) :
    Marks (tr ++ os) s' given' where
  marked := by
    intro turn' i' handle'
    rw [hmarked, h.marked]
    by_cases hsame : turn' = turn ∧ i' = i
    · obtain ⟨rfl, rfl⟩ := hsame
      rw [hnone, hself]
      simp
    · rw [hother turn' i' hsame]
      refine or_iff_left fun heq => hsame ?_
      cases heq
      exact ⟨rfl, rfl⟩
  distinct := by
    intro turn₁ i₁ turn₂ i₂ handle' h₁ h₂
    by_cases hsame₁ : turn₁ = turn ∧ i₁ = i
    · obtain ⟨rfl, rfl⟩ := hsame₁
      obtain rfl := Option.some.inj (hself.symm.trans h₁)
      by_cases hsame₂ : turn₂ = turn₁ ∧ i₂ = i₁
      · exact ⟨hsame₂.1.symm, hsame₂.2.symm⟩
      · rw [hother turn₂ i₂ hsame₂] at h₂
        exact absurd (h.issued _ _ _ h₂) hfresh
    · rw [hother turn₁ i₁ hsame₁] at h₁
      by_cases hsame₂ : turn₂ = turn ∧ i₂ = i
      · obtain ⟨rfl, rfl⟩ := hsame₂
        obtain rfl := Option.some.inj (hself.symm.trans h₂)
        exact absurd (h.issued _ _ _ h₁) hfresh
      · rw [hother turn₂ i₂ hsame₂] at h₂
        exact h.distinct _ _ _ _ _ h₁ h₂
  issued := by
    intro turn' i' handle' hgiven'
    by_cases hsame : turn' = turn ∧ i' = i
    · obtain ⟨rfl, rfl⟩ := hsame
      obtain rfl := Option.some.inj (hself.symm.trans hgiven')
      exact hdrawn
    · rw [hother turn' i' hsame] at hgiven'
      exact mem_drawn_left (h.issued turn' i' handle' hgiven')

end

/-- The first event of a job that is mapped or asked for settles its handle. -/
theorem Marks.fill {closed after : List (Job Text Text)} {id own : Text} {o : Option Text}
    (h : Marks tr s fun turn i => handleAt (jobs turn) i)
    (hjobs : jobs turn = closed ++ (id, o) :: after)
    (hown : o = some own ∨ o = none ∧ own ∉ drawn tr ∧ own ∈ drawn (tr ++ os))
    (hmarked : ∀ turn' i' handle', Marked (tr ++ os) s' turn' i' handle' ↔
      Marked tr s turn' i' handle' ∨ (turn, closed.length, own) = (turn', i', handle')) :
    Marks (tr ++ os) s' fun turn' i =>
      handleAt (Function.update jobs turn (closed ++ (id, some own) :: after) turn') i := by
  have hat : handleAt (jobs turn) closed.length = o := by
    rw [hjobs]
    exact handleAt_self ..
  rcases hown with rfl | ⟨rfl, hfresh, hdrawn⟩
  · rw [← hjobs, Function.update_eq_self]
    exact h.again hat hmarked
  · refine h.give hat hfresh hdrawn ?_ ?_ hmarked
    · rw [Function.update_self]
      exact handleAt_self ..
    · intro turn' i' hne
      by_cases hturn : turn' = turn
      · subst hturn
        rw [Function.update_self, hjobs]
        exact handleAt_other fun hi => hne ⟨rfl, hi⟩
      · rw [Function.update_of_ne hturn]

/-! ## The jobs of the turns -/

/-- What the coordinator has taken of the turn's events. -/
def mapped (turn : Nat) (tr : List (Obs Message)) (s : Worker Message) : List AgentEvent :=
  cores (sent turn tr) ++ cores (itemsOf turn s.pendingEvent)

/-- The jobs are what the agents have begun, with the handles that are out,
and while a turn is active the map follows them. -/
structure Assigned (log : Log Message) (s : Worker Message) (jobs : Nat → List (Job Text Text)) :
    Prop where
  agents : Agents log s jobs
  marks : Marks (observed log) s fun turn i => handleAt (jobs turn) i
  table : s.pc = .running → ∀ turn, s.active = some turn →
    Tabled (tools (mapped turn (observed log) s)) s.callIds (jobs turn)

theorem Assigned.start (setup : Setup Message) : Assigned [] (new setup) fun _ => [] where
  agents := .start setup
  marks := .start setup
  table := fun _ _ h => by cases h

theorem Step.asked_action (h : Step setup s a s' os) {notice : ApprovalNotice}
    (hmem : .asked turn notice ∈ os) : ∃ c handle, a = .call (.name c handle) := by
  cases h with
  | name hcall hstage => exact ⟨_, _, rfl⟩
  | approve hpc => simp [Worker.approve] at hmem
  | startTurn hpc hactive hpending => simp [Worker.startTurn] at hmem
  | holdEvent hpc hactive hpending hevents ha => simp [Worker.holdEvent] at hmem
  | enqueue hpc hpending hsends => simp [Worker.enqueue] at hmem
  | terminalHeld hpc hpending hsends => simp [Worker.enqueue] at hmem
  | _ => simp at hmem

theorem Step.silent (h : Step setup s a s' os) (hname : ∀ c handle, a ≠ .call (.name c handle))
    (hos : ∀ held, .enqueued held ∉ os) : ∀ o ∈ os, ∀ past, carried past o = none := by
  intro o ho past
  cases o with
  | asked turn notice =>
      obtain ⟨c, handle, ha⟩ := h.asked_action ho
      exact absurd ha (hname c handle)
  | enqueued held => exact absurd ho (hos held)
  | _ => rfl

theorem tools_mapped_append (hsent : ∀ turn, sent turn os = [])
    (hpending : tools (cores (itemsOf turn s'.pendingEvent)) =
      tools (cores (itemsOf turn s.pendingEvent))) :
    tools (mapped turn (tr ++ os) s') = tools (mapped turn tr s) := by
  rw [mapped, sent_append, hsent, List.append_nil, tools_append, hpending, mapped, tools_append]

/-- Nothing is done for an invocation. -/
theorem Assigned.frame (h : Assigned log s jobs) (hstep : Step setup s a s' os)
    (hunborn : ∀ c, s.approver.nextToken ≤ c → s.approver.calls c = none)
    (hact : toolAct? a = none) (hname : ∀ c handle, a ≠ .call (.name c handle))
    (hos : ∀ held, .enqueued held ∉ os)
    (hheld : ∀ tr : List (Obs Message), heldMark tr s'.pendingEvent = heldMark tr s.pendingEvent)
    (htable : s'.pc = .running → ∀ turn, s'.active = some turn →
      s.pc = .running ∧ s.active = some turn ∧ s'.callIds = s.callIds ∧
        tools (cores (itemsOf turn s'.pendingEvent)) =
          tools (cores (itemsOf turn s.pendingEvent))) :
    Assigned (log ++ .inl a :: os.map .inr) s' jobs where
  agents := h.agents.frame hstep hunborn hact
  marks := by
    rw [observed_append]
    exact h.marks.frame (hstep.silent hname hos) (sent_eq_nil hos) (hheld _)
  table := by
    intro hpc turn hactive
    obtain ⟨hpc, hactive, hcallIds, hpending⟩ := htable hpc turn hactive
    rw [observed_append, tools_mapped_append (sent_eq_nil hos) hpending, hcallIds]
    exact h.table hpc turn hactive

/-- The agent of a turn does something for an invocation. -/
theorem Assigned.proceed (h : Assigned log s jobs) (hstep : Step setup s a s' os)
    (hunborn : ∀ c, s.approver.nextToken ≤ c → s.approver.calls c = none)
    (hact : toolAct? a = some (turn, act)) (hawaits : awaits s a = true)
    (hone : oneByOne log a = true) (hos : ∀ held, .enqueued held ∉ os) (hpc : s'.pc = s.pc)
    (hactive : s'.active = s.active) (hcallIds : s'.callIds = s.callIds)
    (hpending : s'.pendingEvent = s.pendingEvent) :
    ∃ jobs', Assigned (log ++ .inl a :: os.map .inr) s' jobs' := by
  obtain ⟨phase, hphase, -⟩ := h.agents.spelled turn
  obtain ⟨phase', hnext⟩ : ∃ phase', phase.next act = some phase' := by
    rw [oneByOne, hact] at hone
    have hnext : ((invoking turn log).bind fun phase => phase.next act).isSome = true := hone
    rw [hphase] at hnext
    exact Option.isSome_iff_exists.mp hnext
  have hname : ∀ c handle, a ≠ .call (.name c handle) := by
    rintro c handle rfl
    cases hact
  have hgiven : ∀ turn' i, handleAt
      (Function.update jobs turn (jobs turn ++ opened (phase.begun act)) turn') i =
        handleAt (jobs turn') i := by
    intro turn' i
    by_cases hturn : turn' = turn
    · rw [hturn, Function.update_self, handleAt_open]
    · rw [Function.update_of_ne hturn]
  refine ⟨_, h.agents.proceed hstep hunborn hact hawaits hphase hnext, ?_, ?_⟩
  · simp only [hgiven]
    rw [observed_append]
    exact h.marks.frame (hstep.silent hname hos) (sent_eq_nil hos) (by rw [hpending])
  · intro hpc' turn' hactive'
    rw [observed_append, tools_mapped_append (s := s) (sent_eq_nil hos) (by rw [hpending]),
      hcallIds]
    have htable := h.table (hpc ▸ hpc') turn' (hactive ▸ hactive')
    by_cases hturn : turn' = turn
    · subst hturn
      rw [Function.update_self]
      exact htable.open _
    · rwa [Function.update_of_ne hturn]

/-- A call that is to be given a handle asks for the last of its turn's
invocations, of which the agent has emitted nothing. -/
theorem Agents.awaiting (h : Agents log s jobs) {c : Nat} {call : ApproveCall}
    (hbusy : s.approver.Busy c call) (hnone : call.stage.handle? = none) :
    ∃ before, jobs call.turn = before ++ [(call.providerCallId, none)] ∧
      Invoking.Spells (.asked call.providerCallId) ((jobs call.turn).map Prod.fst)
        (tools (emitted call.turn (observed log))) ∧
      resultCount (emitted call.turn (observed log)) = before.length := by
  obtain ⟨before, hbefore⟩ := h.unnamed c call hbusy hnone
  obtain ⟨phase, hphase, hspells⟩ := h.spelled call.turn
  obtain rfl := Option.some.inj (hphase.symm.trans (h.asking c call hbusy))
  refine ⟨before, hbefore, hspells, ?_⟩
  rw [hbefore] at hspells
  generalize hids : (before ++ [(call.providerCallId, none)]).map Prod.fst = ids at hspells
  generalize hacts : tools (emitted call.turn (observed log)) = spelled at hspells
  cases hspells with
  | asked ids =>
      rw [List.map_append] at hids
      obtain ⟨rfl, -⟩ := List.append_inj' hids rfl
      rw [resultCount, hacts, Invoking.countP_spell, List.length_map]

theorem carries_asked (c : Nat) (own : Text) (notice : ApprovalNotice) {turn' i' : Nat}
    {handle' : Text} :
    Carries (tr ++ [.approver (.named c own), .asked turn notice]) turn' i' handle' ↔
      Carries tr turn' i' handle' ∨
        (turn, resultCount (emitted turn tr), notice.callId) = (turn', i', handle') := by
  have hemitted : emitted turn (tr ++ [.approver (.named c own)]) = emitted turn tr := by
    rw [emitted_append]
    exact List.append_nil _
  have hasked : carried (tr ++ [.approver (.named c own)]) (.asked turn notice) =
      some (turn, resultCount (emitted turn tr), notice.callId) := by
    rw [carried, hemitted]
  rw [Carries.append_iff, sometime_cons, sometime_cons, hasked, Option.some.injEq]
  refine or_congr_right ?_
  constructor
  · rintro (hnamed | hnotice | hnil)
    · cases hnamed
    · exact hnotice
    · exact absurd hnil (not_sometime_nil _)
  · exact fun hnotice => Or.inr (Or.inl hnotice)

/-- No event of an id that an approval takes over is buffered. -/
theorem result_not_mem_of_vacant {c : Nat} {handle : Text} {call : ApproveCall}
    (h : vacant s (.call (.name c handle)) = true) (hcall : s.approver.calls c = some call)
    (hactive : s.active = some call.turn) :
    .result call.providerCallId ∉ tools (s.tasks call.turn).events := by
  have hall : (s.tasks call.turn).events.all (fun event =>
      event.toolAct? != some (.start call.providerCallId) &&
        event.toolAct? != some (.result call.providerCallId)) = true := by
    have hcalls := (Option.all_eq_true ..).mp h call hcall
    simpa [hactive] using hcalls
  intro hmem
  obtain ⟨event, hin, hevent⟩ := List.mem_filterMap.mp hmem
  have hother := List.all_eq_true.mp hall event hin
  simp [hevent] at hother

theorem Assigned.name (h : Assigned log s jobs)
    (hunborn : ∀ c, s.approver.nextToken ≤ c → s.approver.calls c = none)
    (halone : Alone s) (hconserved : Conserved (observed log) s) {c : Nat} {handle : Text}
    {call : ApproveCall} (hcall : s.approver.calls c = some call) (hstage : call.stage = .unlisted)
    (hfresh : handle ∉ drawn (observed log))
    (hvacant : vacant s (.call (.name c handle)) = true)
    (hstep : Step setup s (.call (.name c handle)) s' os)
    (hs' : s' = { s with
      approver := s.approver.setStage c call (.named handle)
      callIds := s.callIds.startApproval call.providerCallId handle })
    (hos : os = [.approver (.named c handle), .asked call.turn (call.notice handle)]) :
    ∃ jobs', Assigned (log ++ .inl (.call (.name c handle)) :: os.map .inr) s' jobs' := by
  have hbusy : s.approver.Busy c call := ⟨hcall, by rw [hstage]; rfl⟩
  obtain ⟨before, hjobs, hspells, hresults⟩ := h.agents.awaiting hbusy (by rw [hstage]; rfl)
  have hagents := h.agents.frame hstep hunborn rfl
  refine ⟨Function.update jobs call.turn (before ++ [(call.providerCallId, some handle)]),
    ?_, ?_, ?_⟩
  · refine hagents.given (fun turn => ?_) (fun c' call' hbusy' hnone => ?_)
    · by_cases hturn : turn = call.turn
      · rw [hturn, Function.update_self, hjobs, List.map_append, List.map_append]
        rfl
      · rw [Function.update_of_ne hturn]
    · by_cases hturn : call'.turn = call.turn
      · -- the turn's one call has its handle
        have hnamed : s'.approver.Busy c { call with stage := .named handle } := by
          rw [hs']
          exact ⟨Function.update_self .., rfl⟩
        obtain rfl := hagents.one c' c call' _ hbusy' hnamed hturn
        obtain rfl := Option.some.inj (hbusy'.1.symm.trans hnamed.1)
        cases hnone
      · rw [Function.update_of_ne hturn]
        exact hagents.unnamed c' call' hbusy' hnone
  · rw [observed_append]
    refine h.marks.fill hjobs (Or.inr ⟨rfl, hfresh, ?_⟩) ?_
    · rw [drawn_append, hos]
      exact List.mem_append_right _ (List.mem_cons_self ..)
    · intro turn' i' handle'
      have hsent : ∀ turn, sent turn os = [] := by
        rw [hos]
        exact fun _ => rfl
      rw [Marked, heldMark_append hsent, hos, carries_asked, hresults, or_right_comm, Marked, hs']
      rfl
  · intro hpc turn hactive
    rw [hs'] at hpc hactive
    obtain rfl := (halone.solo (Or.inl ⟨hpc, hactive⟩)).own c call hbusy
    have hsent : ∀ turn, sent turn os = [] := by
      rw [hos]
      exact fun _ => rfl
    rw [observed_append, tools_mapped_append (s := s) hsent (by rw [hs']),
      Function.update_self, hs']
    have htable := h.table hpc call.turn hactive
    rw [hjobs] at htable hspells
    rw [hconserved call.turn, tools_append] at hspells
    exact htable.ask hspells (result_not_mem_of_vacant hvacant hcall hactive) handle

/-- What is mapped with a new event, if nothing was held. -/
theorem tools_mapped_hold (hpending : s.pendingEvent = none) (handle : Text) (event : AgentEvent)
    (rest : List AgentEvent) :
    tools (mapped turn (tr ++ (s.holdEvent handle turn event rest).2)
      (s.holdEvent handle turn event rest).1) = tools (mapped turn tr s) ++ tools [event] := by
  have hsent : sent turn (s.holdEvent handle turn event rest).2 = [] := sent_map_drew turn _
  have hheld : itemsOf turn (s.holdEvent handle turn event rest).1.pendingEvent = [.core event] :=
    itemsOf_some rfl
  rw [mapped, sent_append, hsent, List.append_nil, hheld, mapped, hpending, tools_append,
    tools_append]
  exact congrArg (· ++ tools [event]) (List.append_nil _).symm

theorem results_sent (hpending : s.pendingEvent = none) :
    resultCount (cores (sent turn tr)) = (tools (mapped turn tr s)).countP ToolAct.isResult := by
  rw [mapped, hpending, resultCount]
  exact congrArg (fun events => (tools events).countP ToolAct.isResult) (List.append_nil _).symm

/-- An event that is mapped shows under its handle. -/
theorem marked_hold (tr : List (Obs Message)) (turn : Nat) (event : AgentEvent)
    (rest : List AgentEvent) (hpending : s.pendingEvent = none) {handle : Text}
    (hevent : event.toolAct? = some act) {callId : Text}
    (hid : (mapAgentEvent s.callIds handle event).1.callId? = some callId)
    (turn' i' : Nat) (handle' : Text) :
    Marked (tr ++ (s.holdEvent handle turn event rest).2) (s.holdEvent handle turn event rest).1
        turn' i' handle' ↔
      Marked tr s turn' i' handle' ∨
        (turn, (tools (mapped turn tr s)).countP ToolAct.isResult, callId) =
        (turn', i', handle') := by
  have hsent : ∀ turn', sent turn' (s.holdEvent handle turn event rest).2 = [] :=
    fun turn' => sent_map_drew turn' _
  have hsilent : ∀ o ∈ (s.holdEvent handle turn event rest).2, ∀ past, carried past o = none := by
    intro o ho past
    obtain ⟨own, -, rfl⟩ := List.mem_map.mp ho
    rfl
  have hmark : heldMark tr (s.holdEvent handle turn event rest).1.pendingEvent =
      some (turn, resultCount (cores (sent turn tr)), callId) := by
    have hhandle : Held.toolHandle? ⟨turn, .core event, (mapAgentEvent s.callIds handle event).1,
        s.callIds, handle, rfl⟩ = some callId := by
      simp [Held.toolHandle?, Item.core?, hevent, hid]
    exact congrArg (Option.map fun own => (turn, resultCount (cores (sent turn tr)), own)) hhandle
  rw [Marked, carries_append_silent hsilent, heldMark_append hsent, hmark, Marked, hpending,
    results_sent hpending, Option.some.injEq]
  exact or_congr_left (or_iff_left fun hheld => by cases hheld).symm

section Hold

variable {handle id : Text} {rest : List AgentEvent}

/-- The event is not of an invocation. -/
theorem Assigned.holdOther (h : Assigned log s jobs) {event : AgentEvent}
    (hunborn : ∀ c, s.approver.nextToken ≤ c → s.approver.calls c = none)
    (hpending : s.pendingEvent = none) (ha : a = .barrier handle ∨ a = .takeEvent handle)
    (hevent : event.toolAct? = none)
    (hstep : Step setup s a (s.holdEvent handle turn event rest).1
      (s.holdEvent handle turn event rest).2) :
    Assigned (log ++ .inl a :: (s.holdEvent handle turn event rest).2.map .inr)
      (s.holdEvent handle turn event rest).1 jobs := by
  have hcallIds : (mapAgentEvent s.callIds handle event).2.2 = s.callIds := by
    cases event with
    | toolStart callId name arguments => cases hevent
    | toolResult callId name content isError => cases hevent
    | _ => rfl
  refine h.frame hstep hunborn ?_ ?_ ?_ ?_ ?_
  · rcases ha with rfl | rfl <;> rfl
  · rcases ha with rfl | rfl <;> simp
  · simp [Worker.holdEvent]
  · intro tr
    rw [hpending]
    have hhandle : Held.toolHandle? ⟨turn, .core event, (mapAgentEvent s.callIds handle event).1,
        s.callIds, handle, rfl⟩ = none := by
      simp [Held.toolHandle?, Item.core?, hevent]
    exact congrArg (Option.map fun own => (turn, resultCount (cores (sent turn tr)), own)) hhandle
  · intro hpc turn' hactive
    refine ⟨hpc, hactive, hcallIds, ?_⟩
    rw [hpending]
    by_cases hturn : turn = turn'
    · have hheld : itemsOf turn' (s.holdEvent handle turn event rest).1.pendingEvent =
          [.core event] :=
        itemsOf_some hturn
      rw [hheld]
      exact List.filterMap_cons_none hevent
    · exact congrArg (fun items => tools (cores items)) (itemsOf_other hturn)

/-- What is spelled of a turn is mapped or buffered. -/
theorem Agents.spells (h : Agents log s jobs) (hconserved : Conserved (observed log) s)
    (turn : Nat) :
    ∃ phase, invoking turn log = some phase ∧ phase.Spells ((jobs turn).map Prod.fst)
      (tools (mapped turn (observed log) s) ++ tools (s.tasks turn).events) := by
  obtain ⟨phase, hphase, hspells⟩ := h.spelled turn
  rw [hconserved turn, tools_append] at hspells
  exact ⟨phase, hphase, hspells⟩

/-- A job that is not the one being asked for is given a handle. -/
theorem Agents.given_before {closed after : List (Job Text Text)} {o : Option Text}
    (h : Agents log s jobs) (hjobs : jobs turn = closed ++ (id, o) :: after)
    (hafter : (∃ id', invoking turn log = some (.asked id')) → after ≠ []) (own : Text) :
    Agents log s (Function.update jobs turn (closed ++ (id, some own) :: after)) := by
  refine h.given (fun turn' => ?_) (fun c call hbusy hnone => ?_)
  · by_cases hturn : turn' = turn
    · rw [hturn, Function.update_self, hjobs, List.map_append, List.map_append]
      rfl
    · rw [Function.update_of_ne hturn]
  · by_cases hturn : call.turn = turn
    · subst hturn
      obtain ⟨before, hbefore⟩ := h.unnamed c call hbusy hnone
      obtain ⟨done, last, rfl⟩ := (List.eq_nil_or_concat after).resolve_left
        (hafter ⟨_, h.asking c call hbusy⟩)
      rw [hbefore, List.concat_eq_append, ← List.cons_append, ← List.append_assoc] at hjobs
      obtain ⟨-, hlast⟩ := List.append_inj' hjobs rfl
      obtain rfl := List.singleton_inj.mp hlast
      rw [Function.update_self]
      exact ⟨closed ++ (id, some own) :: done, by simp⟩
    · rw [Function.update_of_ne hturn]
      exact h.unnamed c call hbusy hnone

/-- A `ToolStart` has the handle its invocation was asked under, or a fresh one. -/
theorem Assigned.holdStart (h : Assigned log s jobs) {name : Text} {arguments : Json.Value}
    (hunborn : ∀ c, s.approver.nextToken ≤ c → s.approver.calls c = none)
    (hconserved : Conserved (observed log) s)
    (hpc : s.pc = .running) (hactive : s.active = some turn) (hpending : s.pendingEvent = none)
    (hevents : (s.tasks turn).events = .toolStart id name arguments :: rest)
    (ha : a = .barrier handle ∨ a = .takeEvent handle)
    (hfresh : (drawn (observed log ++
      (s.holdEvent handle turn (.toolStart id name arguments) rest).2)).Nodup)
    (hstep : Step setup s a (s.holdEvent handle turn (.toolStart id name arguments) rest).1
      (s.holdEvent handle turn (.toolStart id name arguments) rest).2) :
    ∃ jobs', Assigned
      (log ++ .inl a :: (s.holdEvent handle turn (.toolStart id name arguments) rest).2.map .inr)
      (s.holdEvent handle turn (.toolStart id name arguments) rest).1 jobs' := by
  have hact : toolAct? a = none := by rcases ha with rfl | rfl <;> rfl
  have hagents := h.agents.frame hstep hunborn hact
  obtain ⟨phase, hphase, hspells⟩ := h.agents.spells hconserved turn
  rw [hevents] at hspells
  obtain ⟨closed, after, hjobs, hcount, hafter, htabled⟩ := (h.table hpc turn hactive).start hspells
  have hid : (mapAgentEvent s.callIds handle (.toolStart id name arguments)).1.callId? =
      some ((s.callIds.active id).getD handle) := by
    cases hactiveId : s.callIds.active id with
    | some own => simp [mapAgentEvent, CallIdMapper.startEvent_some hactiveId, WorkerEvent.callId?]
    | none => simp [mapAgentEvent, CallIdMapper.startEvent_none hactiveId, WorkerEvent.callId?]
  have hmarked :=
    marked_hold (observed log) turn (.toolStart id name arguments) rest hpending rfl hid
  rw [hcount] at hmarked
  refine ⟨Function.update jobs turn
    (closed ++ (id, some ((s.callIds.active id).getD handle)) :: after), ?_, ?_, ?_⟩
  · refine hagents.given_before hjobs ?_ _
    rintro ⟨id', hasked⟩
    rw [invoking_other (by simp [hact]), hphase] at hasked
    exact hafter ⟨id', Option.some.inj hasked⟩
  · rw [observed_append]
    refine h.marks.fill hjobs ?_ hmarked
    cases hactiveId : s.callIds.active id with
    | some own => exact Or.inl rfl
    | none =>
        have hdrew : drawn (s.holdEvent handle turn (.toolStart id name arguments) rest).2 =
            [handle] := by
          simp [Worker.holdEvent, mapAgentEvent, CallIdMapper.startEvent_none hactiveId,
            drawn, drawn?]
        rw [drawn_append, hdrew] at hfresh ⊢
        have hdisjoint := (List.nodup_append.mp hfresh).2.2
        refine Or.inr ⟨rfl, fun hmem => ?_, List.mem_append_right _ (List.mem_singleton_self _)⟩
        exact hdisjoint _ hmem _ (List.mem_singleton_self _) rfl
  · intro hpc' turn' hactive'
    obtain rfl := Option.some.inj (hactive.symm.trans hactive')
    rw [observed_append, tools_mapped_hold hpending, Function.update_self]
    exact htabled handle

/-- A `ToolResult` has the handle its `ToolStart` had. -/
theorem Assigned.holdResult (h : Assigned log s jobs) {name content : Text} {isError : Bool}
    (hunborn : ∀ c, s.approver.nextToken ≤ c → s.approver.calls c = none)
    (hconserved : Conserved (observed log) s)
    (hpc : s.pc = .running) (hactive : s.active = some turn) (hpending : s.pendingEvent = none)
    (hevents : (s.tasks turn).events = .toolResult id name content isError :: rest)
    (ha : a = .barrier handle ∨ a = .takeEvent handle)
    (hstep : Step setup s a (s.holdEvent handle turn (.toolResult id name content isError) rest).1
      (s.holdEvent handle turn (.toolResult id name content isError) rest).2) :
    Assigned
      (log ++ .inl a ::
        (s.holdEvent handle turn (.toolResult id name content isError) rest).2.map .inr)
      (s.holdEvent handle turn (.toolResult id name content isError) rest).1 jobs := by
  have hact : toolAct? a = none := by rcases ha with rfl | rfl <;> rfl
  obtain ⟨phase, -, hspells⟩ := h.agents.spells hconserved turn
  rw [hevents] at hspells
  obtain ⟨closed, own, after, hjobs, hcount, hactiveId, htabled⟩ :=
    (h.table hpc turn hactive).finish hspells
  have hid : (mapAgentEvent s.callIds handle (.toolResult id name content isError)).1.callId? =
      some own := by
    simp [mapAgentEvent, CallIdMapper.finish_some hactiveId, WorkerEvent.callId?]
  have hmarked :=
    marked_hold (observed log) turn (.toolResult id name content isError) rest hpending rfl hid
  rw [hcount] at hmarked
  refine ⟨h.agents.frame hstep hunborn hact, ?_, ?_⟩
  · rw [observed_append]
    refine h.marks.again ?_ hmarked
    rw [hjobs]
    exact handleAt_self ..
  · intro hpc' turn' hactive'
    obtain rfl := Option.some.inj (hactive.symm.trans hactive')
    rw [observed_append, tools_mapped_hold hpending]
    exact htabled handle

end Hold

/-- What was held is sent. -/
theorem Assigned.enqueue (h : Assigned log s jobs) {held : Held}
    (hunborn : ∀ c, s.approver.nextToken ≤ c → s.approver.calls c = none)
    (hpending : s.pendingEvent = some held) (hact : toolAct? a = none)
    (hstep : Step setup s a (s.enqueue held).1 (s.enqueue held).2) :
    Assigned (log ++ .inl a :: (s.enqueue held).2.map .inr) (s.enqueue held).1 jobs where
  agents := h.agents.frame hstep hunborn hact
  marks := by
    rw [observed_append]
    exact h.marks.enqueue hpending
  table := by
    intro hpc turn hactive
    have htable := h.table hpc turn hactive
    have hmapped : mapped turn (observed log ++ (s.enqueue held).2) (s.enqueue held).1 =
        mapped turn (observed log) s := by
      have hsent : sent turn (s.enqueue held).2 = itemsOf turn (some held) :=
        sent_enqueued turn held
      have hnone : itemsOf turn (s.enqueue held).1.pendingEvent = [] := rfl
      rw [mapped, sent_append, hsent, hnone, mapped, hpending]
      simp [cores]
    rw [observed_append, hmapped]
    exact htable

theorem Assigned.startTurn (h : Assigned log s jobs)
    (hunborn : ∀ c, s.approver.nextToken ≤ c → s.approver.calls c = none)
    (hstarted : Started (observed log) s) (hquiescent : Quiescent s)
    (hpending : s.pendingEvent = none) {text : Text} {rest : List Text}
    (hstep : Step setup s .startTurn (s.startTurn setup text rest).1
      (s.startTurn setup text rest).2) :
    Assigned (log ++ .inl .startTurn :: (s.startTurn setup text rest).2.map .inr)
      (s.startTurn setup text rest).1 jobs where
  agents := h.agents.frame hstep hunborn rfl
  marks := by
    rw [observed_append]
    refine h.marks.frame (hstep.silent (by simp) ?_) (sent_eq_nil ?_) rfl
    · simp [Worker.startTurn]
    · simp [Worker.startTurn]
  table := by
    intro hpc turn hactive
    obtain rfl := Option.some.inj hactive
    have hmapped : mapped s.nextTurn (observed log ++ (s.startTurn setup text rest).2)
        (s.startTurn setup text rest).1 = [] := by
      have hsent : sent s.nextTurn (s.startTurn setup text rest).2 = [] := rfl
      have hheld : (s.startTurn setup text rest).1.pendingEvent = none := hpending
      rw [mapped, sent_append, hsent, hstarted.sent_eq_nil (Nat.le_refl _), hheld]
      rfl
    have hcallIds : (s.startTurn setup text rest).1.callIds = .empty := hquiescent.callIds
    rw [observed_append, hmapped, hcallIds, h.agents.unstarted _ (Nat.le_refl _)]
    exact .empty

/-- What is dropped with a cancelled turn is of no invocation's event. -/
theorem heldMark_keepOrdinary (tr : List (Obs Message)) (held : Option Held) :
    heldMark tr (keepOrdinary held) = heldMark tr held := by
  cases held with
  | none => rfl
  | some held =>
      rcases keepOrdinary_cases held with hkept | ⟨hdropped, hcore⟩
      · rw [hkept]
      · rw [hdropped]
        simp [heldMark, carried, Held.toolHandle?, hcore]

theorem Assigned.step (h : Assigned log s jobs)
    (hunborn : ∀ c, s.approver.nextToken ≤ c → s.approver.calls c = none)
    (hconserved : Conserved (observed log) s) (hstarted : Started (observed log) s)
    (halone : Alone s) (hcourse : Course s) (hfresh : (drawn (observed log ++ os)).Nodup)
    (hawaits : awaits s a = true) (hone : oneByOne log a = true) (hvacant : vacant s a = true)
    (hstep : Step setup s a s' os) : ∃ jobs', Assigned (log ++ .inl a :: os.map .inr) s' jobs' := by
  have hwhole := hstep
  cases hstep with
  | startTurn hpc hactive hpending =>
      exact ⟨jobs, h.startTurn hunborn hstarted (halone.quiescent hpc hactive) hpending hwhole⟩
  | @holdEvent a handle turn event rest hpc hactive hpending hevents ha =>
      cases event with
      | toolStart callId name arguments =>
          exact h.holdStart hunborn hconserved hpc hactive hpending hevents ha hfresh hwhole
      | toolResult callId name content isError =>
          exact ⟨jobs, h.holdResult hunborn hconserved hpc hactive hpending hevents ha hwhole⟩
      | _ => exact ⟨jobs, h.holdOther hunborn hpending ha rfl hwhole⟩
  | enqueue hpc hpending hsends => exact ⟨jobs, h.enqueue hunborn hpending rfl hwhole⟩
  | terminalHeld hpc hpending hsends => exact ⟨jobs, h.enqueue hunborn hpending rfl hwhole⟩
  | @emit turn event hturn hopen =>
      cases hevent : event.toolAct? with
      | some act =>
          exact h.proceed hwhole hunborn (by rw [toolAct?, hevent]; rfl) hawaits hone
            (by simp) rfl rfl rfl rfl
      | none =>
          exact ⟨jobs, h.frame hwhole hunborn (by rw [toolAct?, hevent]; rfl) (by simp)
            (by simp) (fun _ => rfl) (fun hpc turn hactive => ⟨hpc, hactive, rfl, rfl⟩)⟩
  | @call action approver os hallows hcalled =>
      have hos : ∀ held, (.enqueued held : Obs Message) ∉ os.map .approver := by simp
      cases action with
      | request turn providerCallId tool arguments =>
          exact h.proceed hwhole hunborn rfl hawaits hone hos rfl rfl rfl rfl
      | name c handle => exact absurd hallows id
      | _ =>
          exact ⟨jobs, h.frame hwhole hunborn rfl (by simp) hos (fun _ => rfl)
            (fun hpc turn hactive => ⟨hpc, hactive, rfl, rfl⟩)⟩
  | @name c handle call hcall hstage =>
      have hdisjoint : handle ∉ drawn (observed log) := by
        rw [drawn_append] at hfresh
        exact fun hmem => (List.nodup_append.mp hfresh).2.2 _ hmem _ (List.mem_cons_self ..) rfl
      exact h.name hunborn halone hconserved hcall hstage hdisjoint hvacant hwhole rfl rfl
  | @holdNotice handle turn barrier hpc hactive hpending hbarrier hevents hopen =>
      refine ⟨jobs, h.frame hwhole hunborn rfl (by simp) (by simp) (fun tr => ?_)
        (fun hpc turn' hactive => ⟨hpc, hactive, rfl, ?_⟩)⟩
      · rw [hpending]
        rfl
      · rw [hpending]
        by_cases hturn : barrier.1 = turn'
        · have hheld : itemsOf turn' (s.holdNotice barrier).pendingEvent = [.approval barrier.2] :=
            itemsOf_some hturn
          rw [hheld]
          rfl
        · exact congrArg (fun items => tools (cores items)) (itemsOf_other hturn)
  | cancelCompleted hpc houtcome =>
      refine ⟨jobs, h.frame hwhole hunborn rfl (by simp) (by simp)
        (fun tr => heldMark_keepOrdinary tr _) (fun _ turn hactive => ?_)⟩
      cases (hcourse.cancelling _ hpc).1.symm.trans hactive
  | cancelDeadline hpc =>
      exact ⟨jobs, h.frame hwhole hunborn rfl (by simp) (by simp)
        (fun tr => heldMark_keepOrdinary tr _) (fun hpc' => by cases hpc')⟩
  | stopDone hpc =>
      exact ⟨jobs, h.frame hwhole hunborn rfl (by simp) (by simp)
        (fun tr => heldMark_keepOrdinary tr _) (fun hpc' => by cases hpc')⟩
  | joinTurn hpc houtcome =>
      obtain ⟨hactive, hpending, -⟩ := hcourse.joining _ hpc
      refine ⟨jobs, h.frame hwhole hunborn rfl (by simp) (by simp) (fun tr => ?_)
        (fun _ turn hactive' => ?_)⟩
      · rw [join_pending_none hpending, hpending]
      · rw [join_active] at hactive'
        cases hactive.symm.trans hactive'
  | cancel hpc
  | stop hpc
  | overflow hpc
  | stopInactive hpc
  | commandsClosed hpc
  | commandError hpc
  | turnClosed hpc
  | writerGone hpc
  | terminalEvent hpc
  | terminalGiveUp hpc
  | abortDone hpc
  | closed hpc
  | closeDeadline hpc =>
      -- the coordinator leaves the loop, or the turn
      exact ⟨jobs, h.frame hwhole hunborn rfl (by simp) (by simp) (fun _ => rfl)
        (fun hpc' => by cases hpc')⟩
  | approve hpc =>
      exact ⟨jobs, h.frame hwhole hunborn rfl (by simp) (by simp [Worker.approve]) (fun _ => rfl)
        (fun hpc turn hactive => ⟨hpc, hactive, rfl, rfl⟩)⟩
  | _ =>
      exact ⟨jobs, h.frame hwhole hunborn rfl (by simp) (by simp) (fun _ => rfl)
        (fun hpc turn hactive => ⟨hpc, hactive, rfl, rfl⟩)⟩

/-! ## The approvals that are sent -/

/-- The approvals on their way, and those sent, were asked for. -/
structure Requested (tr : List (Obs Message)) (s : Worker Message) : Prop where
  noticed : ∀ notice ∈ s.notices, .asked notice.1 notice.2 ∈ tr
  held : ∀ held notice, s.pendingEvent = some held → held.item = .approval notice →
    .asked held.turn notice ∈ tr
  sent : ∀ held notice, .enqueued held ∈ tr → held.item = .approval notice →
    .asked held.turn notice ∈ tr

theorem Requested.start (setup : Setup Message) : Requested [] (new setup) where
  noticed := fun _ h => by cases h
  held := fun _ _ h => by cases h
  sent := fun _ _ h => by cases h

/-- What is held and what is on its way was already. -/
theorem Requested.frame (h : Requested tr s) (hstep : Step setup s a s' os)
    (hnotices : ∀ notice ∈ s'.notices, notice ∈ s.notices)
    (hheld : ∀ held notice, s'.pendingEvent = some held → held.item = .approval notice →
      s.pendingEvent = some held ∨ (held.turn, notice) ∈ s.notices) : Requested (tr ++ os) s' where
  noticed := fun notice hmem => List.mem_append_left _ (h.noticed notice (hnotices notice hmem))
  held := by
    intro held notice hpending hitem
    refine List.mem_append_left _ ?_
    rcases hheld held notice hpending hitem with hold | hmem
    · exact h.held held notice hold hitem
    · exact h.noticed _ hmem
  sent := by
    intro held notice hmem hitem
    refine List.mem_append_left _ ?_
    rcases List.mem_append.mp hmem with hmem | hmem
    · exact h.sent held notice hmem hitem
    · exact h.held held notice (hstep.enqueued hmem) hitem

theorem Requested.step (h : Requested tr s)
    (hasked : ∀ c call handle, s.approver.calls c = some call → call.stage.handle? = some handle →
      .asked call.turn (call.notice handle) ∈ tr)
    (hstep : Step setup s a s' os) : Requested (tr ++ os) s' := by
  have hwhole := hstep
  cases hstep with
  | holdEvent hpc hactive hpending hevents ha =>
      refine h.frame hwhole (fun _ hmem => hmem) (fun held notice hheld hitem => ?_)
      obtain rfl := Option.some.inj hheld
      cases hitem
  | holdNotice hpc hactive hpending hbarrier hevents hopen =>
      refine h.frame hwhole (fun notice hmem => List.mem_append_right _ hmem)
        (fun held notice hheld hitem => Or.inr ?_)
      obtain rfl := Option.some.inj hheld
      obtain rfl := Item.approval.inj hitem
      exact mem_notices.mpr (Or.inl hbarrier)
  | dropBarrier hpc hactive hpending hbarrier hevents hclosed =>
      exact h.frame hwhole (fun notice hmem => List.mem_append_right _ hmem)
        (fun _ _ hheld _ => Or.inl hheld)
  | takeNotice hpc hactive hbarrier happrovals =>
      refine h.frame hwhole (fun notice hmem => mem_notices.mpr (Or.inr ?_))
        (fun _ _ hheld _ => Or.inl hheld)
      rw [happrovals]
      exact hmem
  | enqueue hpc hpending =>
      exact h.frame hwhole (fun _ hmem => hmem) (fun _ _ hheld => by cases hheld)
  | terminalHeld hpc hpending =>
      exact h.frame hwhole (fun _ hmem => hmem) (fun _ _ hheld => by cases hheld)
  | cancelCompleted hpc houtcome =>
      exact h.frame hwhole (fun _ hmem => by cases hmem)
        (fun _ _ hheld _ => Or.inl (keepOrdinary_eq_some hheld))
  | cancelDeadline hpc =>
      exact h.frame hwhole (fun _ hmem => by cases hmem)
        (fun _ _ hheld _ => Or.inl (keepOrdinary_eq_some hheld))
  | stopDone hpc =>
      refine h.frame hwhole (fun notice hmem => ?_)
        (fun _ _ hheld _ => Or.inl (keepOrdinary_eq_some hheld))
      exact mem_notices.mpr ((mem_notices.mp hmem).imp_right fun h => by cases h)
  | abortDone hpc =>
      refine h.frame hwhole (fun notice hmem => ?_) (fun _ _ hheld _ => Or.inl hheld)
      exact mem_notices.mpr ((mem_notices.mp hmem).imp_right fun h => by cases h)
  | joinTurn hpc houtcome =>
      refine h.frame hwhole (fun notice hmem => ?_) (fun _ _ hheld _ => Or.inl (join_pending hheld))
      rw [mem_notices, join_barrier] at hmem
      exact mem_notices.mpr (hmem.imp_right join_approvals)
  | @notify c handle call hcall hstage =>
      refine ⟨fun notice hmem => List.mem_append_left _ ?_, ?_, ?_⟩
      · rcases mem_notices.mp hmem with hbarrier | hqueued
        · exact h.noticed notice (mem_notices.mpr (Or.inl hbarrier))
        · rcases List.mem_append.mp hqueued with hold | hnew
          · exact h.noticed notice (mem_notices.mpr (Or.inr hold))
          · obtain rfl := List.mem_singleton.mp hnew
            exact hasked c call handle hcall (by rw [hstage]; rfl)
      · rw [List.append_nil]
        exact h.held
      · rw [List.append_nil]
        exact h.sent
  | _ => exact h.frame hwhole (fun _ hmem => hmem) (fun _ _ hheld _ => Or.inl hheld)

theorem run_requested {C : List (Obs Message) → Worker Message → Action Message → Prop}
    (h : (machine setup).Run C tr s) : Requested tr s := by
  refine h.invariant (Requested.start setup) ?_
  intro tr os s s' a hrun hinv _ hstep
  exact hinv.step (run_asked hrun) (step_cases hstep)

/-! ## Runs -/

theorem inTask_of_awaits (h : awaits s a = true) : inTask s a = true := by
  cases a with
  | finish turn outcome => exact h
  | call action =>
      cases action with
      | request turn providerCallId tool arguments =>
          simp only [awaits, Bool.and_eq_true] at h
          exact h.2
      | _ => rfl
  | _ => rfl

/-- The agents await their calls and go one invocation after another, and an
approval takes over no id that an event in the channel has. -/
def Unmixed (log : Log Message) (s : Worker Message) (a : Action Message) : Prop :=
  (awaits s a = true ∧ oneByOne log a = true) ∧ vacant s a = true

theorem run_assigned (h : (machine setup).logged.Run Unmixed log s) :
    (drawn (observed log)).Nodup → ∃ jobs, Assigned log s jobs := by
  refine h.invariant (I := fun log s => (drawn (observed log)).Nodup → ∃ jobs, Assigned log s jobs)
    (fun _ => ⟨_, .start setup⟩) ?_
  intro log entries s s' a hrun hinv ha hlogged hfresh
  obtain ⟨os, hstep, rfl⟩ := Machine.logged_step hlogged
  obtain ⟨⟨hawaits, hone⟩, hvacant⟩ := ha
  rw [observed_append] at hfresh
  have hfreshBefore : (drawn (observed log)).Nodup := by
    rw [drawn_append] at hfresh
    exact (List.nodup_append.mp hfresh).1
  obtain ⟨jobs, hassigned⟩ := hinv hfreshBefore
  have hplain : (machine setup).Run (fun _ s a => inTask s a = true) (observed log) s :=
    hrun.of_logged fun _ _ _ h => inTask_of_awaits h.1.1
  exact hassigned.step (RemoteApprover.run_sound (run_approver hplain)).1.unborn
    (run_conserved hplain)
    (run_started hplain) (run_alone hplain).1 (run_course hplain) hfresh hawaits hone hvacant
    (step_cases hstep)

/-- Where the agents await their calls, go one invocation after another, and
no approval takes over an id that an event in the channel has, the events of
an invocation have one handle, and no other invocation's have it. -/
theorem one_handle_per_invocation (h : (machine setup).logged.Run Unmixed log s)
    (hfresh : (drawn (observed log)).Nodup) : OneHandle (observed log) ∧
      ∀ held notice, .enqueued held ∈ observed log → held.item = .approval notice →
        held.event.callId? = some notice.callId ∧ .asked held.turn notice ∈ observed log := by
  obtain ⟨jobs, hassigned⟩ := run_assigned h hfresh
  refine ⟨hassigned.marks.oneHandle, fun held notice hmem hitem => ⟨?_, ?_⟩⟩
  · have hrenders := held.renders
    rw [hitem] at hrenders
    have hevent : held.event = mapApprovalNotice notice := hrenders
    rw [hevent]
    rfl
  · have hplain : (machine setup).Run (fun _ _ _ => True) (observed log) s :=
      h.of_logged fun _ _ _ _ => trivial
    exact (run_requested hplain).sent held notice hmem hitem

/-- Two invocations of a turn with one id. The second asks for its approval
when nothing of the first is in the channel any more. -/
theorem one_handle_per_invocation_again : ∃ (log : Log Text) (s : Worker Text),
    (machine (plainSetup ["bash".toList])).logged.Run Unmixed log s ∧ (drawn (observed log)).Nodup ∧
    acts 0 log = [.start "p".toList, .result "p".toList, .approve "p".toList,
      .start "p".toList, .result "p".toList] ∧
    OneHandle (observed log) := by
  have hcheck : ∀ (log : Log Text) (s : Worker Text) (a : Action Text),
      ((awaits s a && oneByOne log a) && vacant s a) = true → Unmixed log s a := by
    intro log s a h
    obtain ⟨h, hvacant⟩ := Bool.and_eq_true_iff.mp h
    exact ⟨Bool.and_eq_true_iff.mp h, hvacant⟩
  have hrun : (machine (plainSetup ["bash".toList])).logged.Run Unmixed _ _ :=
    Machine.Run.exec (fun log s a => (awaits s a && oneByOne log a) && vacant s a) hcheck
      [.command (.input "run".toList), .startTurn,
        .emit 0 (.toolStart "p".toList "read".toList .null), .takeEvent "h".toList, .reserve,
        .emit 0 (.toolResult "p".toList "read".toList [] false), .takeEvent [], .reserve,
        .call (.request 0 "p".toList "bash".toList .null), .call (.check 0),
        .call (.name 0 "k".toList), .call (.register 0), .call (.notify 0), .takeNotice,
        .barrier [], .reserve, .command (.approve "k".toList .allow), .call (.receive 0),
        .call (.dropGuard 0), .emit 0 (.toolStart "p".toList "bash".toList .null),
        .takeEvent [], .reserve, .emit 0 (.toolResult "p".toList "bash".toList [] false),
        .takeEvent [], .reserve]
      .start rfl
  have hfresh := (by decide : ["h".toList, "k".toList].Nodup)
  exact ⟨_, _, hrun, hfresh, rfl, (one_handle_per_invocation hrun hfresh).1⟩

/-- The approval of a second invocation takes over the id while the events of
the first are in the channel, which then go out under the handle of the second. -/
theorem buffered_id_taken_over :
    ¬∀ (log : Log Text) (s : Worker Text),
      (machine (plainSetup ["bash".toList])).logged.Run
        (fun log s a => awaits s a = true ∧ oneByOne log a = true) log s →
      (drawn (observed log)).Nodup → OneHandle (observed log) := by
  intro hall
  have hrun : (machine (plainSetup ["bash".toList])).logged.Run
      (fun log s a => awaits s a = true ∧ oneByOne log a = true) _ _ :=
    Machine.Run.exec (fun log s a => awaits s a && oneByOne log a)
      (fun _ _ _ h => Bool.and_eq_true_iff.mp h)
      [.command (.input "run".toList), .startTurn,
        .emit 0 (.toolStart "p".toList "read".toList .null),
        .emit 0 (.toolResult "p".toList "read".toList [] false),
        .call (.request 0 "p".toList "bash".toList .null), .call (.check 0),
        .call (.name 0 "k".toList), .takeEvent "h".toList, .reserve, .call (.register 0),
        .call (.notify 0)]
      .start rfl
  have hone := hall _ _ hrun (by decide : ["k".toList].Nodup)
  -- the start of the first invocation is enqueued, the approval of the second was asked
  have hsame : "k".toList = "k".toList ↔ (0 : Nat) = 0 ∧ (0 : Nat) = 1 :=
    hone 0 0 _ 0 1 _ ⟨[_, _, _, _, _], _, _, rfl, rfl⟩ ⟨[_, _, _, _], _, _, rfl, rfl⟩
  cases (hsame.mp rfl).2

end Worker

end PeakcodeDaemon
