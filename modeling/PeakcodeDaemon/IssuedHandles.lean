import PeakcodeDaemon.TerminalEvents
import PeakcodeDaemon.WorkerOrder

/-!
# Where call ids come from

Every call id the worker sends was drawn by `new_handle`: for the call of
`approve` that asked, or for the first event of a tool call that did not.
None is the provider's.

One invariant (`Issued`) follows the handles through the map of call ids,
the notices, the held event and the event channel. An event carries a
handle of the map or one drawn for it (`mapAgentEvent_callId`), so a step
either moves handles that were drawn (`Issued.frame`) or draws the one it
adds (`Issued.hold`, `Issued.name`).
-/

namespace PeakcodeDaemon

/-- The call id of a worker event. -/
def WorkerEvent.callId? : WorkerEvent → Option Text
  | .toolStart callId _ _ | .toolResult callId _ _ _ | .needsApproval callId _ _ => some callId
  | _ => none

/-- The worker's own last event is about no call. -/
theorem WorkerEvent.callId?_of_isTerminal {event : WorkerEvent} (h : event.isTerminal = true) :
    event.callId? = none := by
  cases event with
  | done finalMessageCount => rfl
  | crash message => rfl
  | _ => cases h

/-- An agent's event carries a handle of the map, or one drawn for it. -/
theorem mapAgentEvent_callId {callIds : CallIdMapper} {handle : Text} {event : AgentEvent}
    {callId : Text} (h : (mapAgentEvent callIds handle event).1.callId? = some callId) :
    (∃ providerCallId, callIds.active providerCallId = some callId) ∨
      callId ∈ (mapAgentEvent callIds handle event).2.1 := by
  cases event with
  | toolStart providerCallId name arguments =>
      simp only [mapAgentEvent, CallIdMapper.startEvent] at h ⊢
      cases hactive : callIds.active providerCallId with
      | some own =>
          rw [hactive] at h
          obtain rfl := Option.some.inj h
          exact Or.inl ⟨providerCallId, hactive⟩
      | none =>
          rw [hactive] at h
          obtain rfl := Option.some.inj h
          exact Or.inr (List.mem_singleton_self _)
  | toolResult providerCallId name content isError =>
      simp only [mapAgentEvent, CallIdMapper.finish] at h ⊢
      cases hactive : callIds.active providerCallId with
      | some own =>
          rw [hactive] at h
          obtain rfl := Option.some.inj h
          exact Or.inl ⟨providerCallId, hactive⟩
      | none =>
          rw [hactive] at h
          obtain rfl := Option.some.inj h
          exact Or.inr (List.mem_singleton_self _)
  | _ => cases h

/-- What the map has afterwards it had, or it was drawn for this event. -/
theorem mapAgentEvent_active {callIds : CallIdMapper} {handle : Text} {event : AgentEvent}
    {providerCallId callId : Text}
    (h : (mapAgentEvent callIds handle event).2.2.active providerCallId = some callId) :
    callIds.active providerCallId = some callId ∨
      callId ∈ (mapAgentEvent callIds handle event).2.1 := by
  cases event with
  | toolStart providerCallId' name arguments =>
      simp only [mapAgentEvent, CallIdMapper.startEvent] at h ⊢
      cases hactive : callIds.active providerCallId' with
      | some own =>
          rw [hactive] at h
          exact Or.inl h
      | none =>
          rw [hactive] at h
          rcases RemoteApprover.update_eq_some h with ⟨-, rfl⟩ | ⟨-, hold⟩
          · exact Or.inr (List.mem_singleton_self _)
          · exact Or.inl hold
  | toolResult providerCallId' name content isError =>
      simp only [mapAgentEvent, CallIdMapper.finish] at h ⊢
      cases hactive : callIds.active providerCallId' with
      | some own =>
          rw [hactive] at h
          exact Or.inl (RemoteApprover.update_none_eq_some h).2
      | none =>
          rw [hactive] at h
          exact Or.inl h
  | _ => exact Or.inl h

namespace Worker

variable {Message : Type} {setup : Setup Message} {tr os : List (Obs Message)}
    {s s' : Worker Message}
  {a : Action Message}

/-- The handles the worker holds for events, and those it has sent, were drawn. -/
structure Issued (tr : List (Obs Message)) (s : Worker Message) : Prop where
  mapped : ∀ providerCallId handle, s.callIds.active providerCallId = some handle →
    handle ∈ drawn tr
  held : ∀ held handle, s.pendingEvent = some held → held.event.callId? = some handle →
    handle ∈ drawn tr
  noticed : ∀ notice ∈ s.notices, notice.2.callId ∈ drawn tr
  sent : ∀ event ∈ events tr, ∀ handle, event.callId? = some handle → handle ∈ drawn tr

theorem Issued.start (setup : Setup Message) : Issued [] (new setup) where
  mapped := fun _ _ h => by cases h
  held := fun _ _ h => by cases h
  noticed := fun _ h => by cases h
  sent := fun _ h => by cases h

theorem mem_drawn_left {handle : Text} (h : handle ∈ drawn tr) : handle ∈ drawn (tr ++ os) := by
  rw [drawn_append]
  exact List.mem_append_left _ h

/-- A step that adds no handle. -/
theorem Issued.frame (h : Issued tr s)
    (hmapped : s'.callIds = s.callIds ∨ s'.callIds = .empty)
    (hheld : ∀ held, s'.pendingEvent = some held → s.pendingEvent = some held)
    (hnotices : ∀ notice ∈ s'.notices, notice ∈ s.notices)
    (hsent : ∀ event ∈ events os, event.callId? = none ∨
      ∃ held, s.pendingEvent = some held ∧ event = held.event) : Issued (tr ++ os) s' where
  mapped := by
    intro providerCallId handle hactive
    rcases hmapped with heq | heq
    · rw [heq] at hactive
      exact mem_drawn_left (h.mapped providerCallId handle hactive)
    · rw [heq] at hactive
      cases hactive
  held := fun held handle hpending hid =>
    mem_drawn_left (h.held held handle (hheld held hpending) hid)
  noticed := fun notice hmem => mem_drawn_left (h.noticed notice (hnotices notice hmem))
  sent := by
    intro event hmem handle hid
    rw [events_append] at hmem
    rcases List.mem_append.mp hmem with hold | hnew
    · exact mem_drawn_left (h.sent event hold handle hid)
    · rcases hsent event hnew with hnone | ⟨held, hpending, rfl⟩
      · cases hnone.symm.trans hid
      · exact mem_drawn_left (h.held held handle hpending hid)

/-- The handles drawn for an event are among those drawn. -/
theorem mem_drawn_drew {handle : Text} {handles : List Text} (h : handle ∈ handles) :
    handle ∈ drawn (tr ++ handles.map Obs.drew) := by
  rw [drawn_append]
  refine List.mem_append_right _ (List.mem_filterMap.mpr ⟨.drew handle, ?_, rfl⟩)
  exact List.mem_map_of_mem h

/-- Mapping an event draws at most the handle it shows. -/
theorem Issued.hold (h : Issued tr s) (handle : Text) (turn : Nat) (event : AgentEvent)
    (rest : List AgentEvent) : Issued (tr ++ (s.holdEvent handle turn event rest).2)
      (s.holdEvent handle turn event rest).1 where
  mapped := by
    intro providerCallId callId hactive
    rcases mapAgentEvent_active hactive with hold | hnew
    · exact mem_drawn_left (h.mapped providerCallId callId hold)
    · exact mem_drawn_drew hnew
  held := by
    intro held callId hpending hid
    obtain rfl := Option.some.inj hpending
    rcases mapAgentEvent_callId hid with ⟨providerCallId, hold⟩ | hnew
    · exact mem_drawn_left (h.mapped providerCallId callId hold)
    · exact mem_drawn_drew hnew
  noticed := fun notice hmem => mem_drawn_left (h.noticed notice hmem)
  sent := by
    intro sent hmem callId hid
    rw [events_append] at hmem
    rcases List.mem_append.mp hmem with hold | hnew
    · exact mem_drawn_left (h.sent sent hold callId hid)
    · rw [show events (s.holdEvent handle turn event rest).2 = [] from events_map_drew _] at hnew
      cases hnew

/-- A notice is at the barrier or in its channel. -/
theorem mem_notices {notice : Nat × ApprovalNotice} :
    notice ∈ s.notices ↔ s.approvalBarrier = some notice ∨ notice ∈ s.approvals := by
  rw [notices, List.mem_append, Option.mem_toList]

/-- A turn that ended well takes its call ids with it. -/
theorem join_callIds (outcome : Outcome Message) :
    (s.join outcome).callIds = s.callIds ∨ (s.join outcome).callIds = .empty := by
  cases outcome with
  | ok finalMessages => exact Or.inr rfl
  | _ => exact Or.inl rfl

/-- What is enqueued was held. -/
theorem enqueue_events {held : Held} (hpending : s.pendingEvent = some held) :
    ∀ event ∈ events (s.enqueue held).2, event.callId? = none ∨
      ∃ held, s.pendingEvent = some held ∧ event = held.event := by
  intro event hmem
  obtain rfl := List.mem_singleton.mp hmem
  exact Or.inr ⟨held, hpending, rfl⟩

/-- Naming a call puts the handle that was drawn for it into the map. -/
theorem Issued.name (h : Issued tr s) {c : Nat} {handle : Text} {call : ApproveCall} :
    Issued (tr ++ [.approver (.named c handle), .asked call.turn (call.notice handle)]) { s with
      approver := s.approver.setStage c call (.named handle)
      callIds := s.callIds.startApproval call.providerCallId handle } where
  mapped := by
    intro providerCallId callId hactive
    rcases RemoteApprover.update_eq_some hactive with ⟨-, rfl⟩ | ⟨-, hold⟩
    · rw [drawn_append]
      exact List.mem_append_right _ (List.mem_singleton_self _)
    · exact mem_drawn_left (h.mapped providerCallId callId hold)
  held := fun held callId hpending hid => mem_drawn_left (h.held held callId hpending hid)
  noticed := fun notice hmem => mem_drawn_left (h.noticed notice hmem)
  sent := by
    intro event hmem callId hid
    rw [events_append] at hmem
    exact mem_drawn_left (h.sent event (by simpa [events, event?] using hmem) callId hid)

/-- The calls of `approve` have handles that were drawn, and the worker's own last
event has none. -/
theorem Issued.step (h : Issued tr s)
    (hnamed : ∀ c call handle, s.approver.calls c = some call → call.stage.handle? = some handle →
      handle ∈ drawn tr)
    (hterminal : ∀ event result, s.pc = .terminal event result → event.isTerminal = true)
    (hstep : Step setup s a s' os) : Issued (tr ++ os) s' := by
  have hsame : ∀ {s' : Worker Message} {os : List (Obs Message)},
      (s'.callIds = s.callIds ∨ s'.callIds = .empty) →
      (∀ held, s'.pendingEvent = some held → s.pendingEvent = some held) →
      (∀ notice ∈ s'.notices, notice ∈ s.notices) → events os = [] → Issued (tr ++ os) s' :=
    fun hmapped hheld hnotices hos => h.frame hmapped hheld hnotices (by simp [hos])
  cases hstep with
  | holdEvent hpc hactive hpending hevents ha => exact h.hold ..
  | @holdNotice handle turn barrier hpc hactive hpending hbarrier hevents hopen =>
      have hbarred := h.noticed barrier (mem_notices.mpr (Or.inl hbarrier))
      rw [List.append_nil]
      refine ⟨h.mapped, fun held callId hheld hid => ?_, fun notice hmem => ?_, h.sent⟩
      · obtain rfl := Option.some.inj hheld
        obtain rfl := Option.some.inj hid
        exact hbarred
      · exact h.noticed notice (List.mem_append_right _ hmem)
  | dropBarrier hpc hactive hpending hbarrier hevents hclosed =>
      exact hsame (Or.inl rfl) (fun _ h => h) (fun notice hmem => List.mem_append_right _ hmem) rfl
  | @takeNotice turn taken rest hpc hactive hbarrier happrovals =>
      refine hsame (Or.inl rfl) (fun _ h => h) (fun notice hmem => mem_notices.mpr (Or.inr ?_)) rfl
      rw [happrovals]
      exact hmem
  | enqueue hpc hpending hsends =>
      exact h.frame (Or.inl rfl) (fun _ h => by cases h) (fun _ h => h) (enqueue_events hpending)
  | terminalHeld hpc hpending hsends =>
      exact h.frame (Or.inl rfl) (fun _ h => by cases h) (fun _ h => h) (enqueue_events hpending)
  | terminalEvent hpc hpending hsends =>
      refine h.frame (Or.inl rfl) (fun _ h => h) (fun _ h => h) fun event hmem => ?_
      obtain rfl := List.mem_singleton.mp hmem
      exact Or.inl (WorkerEvent.callId?_of_isTerminal (hterminal _ _ hpc))
  | cancelCompleted hpc houtcome =>
      exact hsame (Or.inr rfl) (fun _ hheld => keepOrdinary_eq_some hheld)
        (fun _ h => by cases h) rfl
  | cancelDeadline hpc =>
      exact hsame (Or.inr rfl) (fun _ hheld => keepOrdinary_eq_some hheld)
        (fun _ h => by cases h) rfl
  | stopDone hpc =>
      refine hsame (Or.inr rfl) (fun _ hheld => keepOrdinary_eq_some hheld)
        (fun notice hmem => ?_) rfl
      exact mem_notices.mpr ((mem_notices.mp hmem).imp_right fun h => by cases h)
  | joinTurn hpc houtcome =>
      refine hsame (join_callIds _) (fun _ hheld => join_pending hheld) (fun notice hmem => ?_) rfl
      rw [mem_notices, join_barrier] at hmem
      exact mem_notices.mpr (hmem.imp_right join_approvals)
  | abortDone hpc =>
      refine hsame (Or.inr rfl) (fun _ h => h) (fun notice hmem => ?_) rfl
      exact mem_notices.mpr ((mem_notices.mp hmem).imp_right fun h => by cases h)
  | name hcall hstage => exact h.name
  | @notify c handle call hcall hstage =>
      have hown := hnamed c call handle hcall (by rw [hstage]; rfl)
      rw [List.append_nil]
      refine ⟨h.mapped, h.held, fun notice hmem => ?_, h.sent⟩
      rcases mem_notices.mp hmem with hbarrier | hqueued
      · exact h.noticed notice (mem_notices.mpr (Or.inl hbarrier))
      · rcases List.mem_append.mp hqueued with hold | hnew
        · exact h.noticed notice (mem_notices.mpr (Or.inr hold))
        · obtain rfl := List.mem_singleton.mp hnew
          exact hown
  | approve hpc => exact hsame (Or.inl rfl) (fun _ h => h) (fun _ h => h) (events_map_approver _)
  | call hallows hcalled =>
      exact hsame (Or.inl rfl) (fun _ h => h) (fun _ h => h) (events_map_approver _)
  | _ => exact hsame (Or.inl rfl) (fun _ h => h) (fun _ h => h) rfl

/-- In every run the handles in use were drawn. -/
theorem run_issued {A : List (Obs Message) → Worker Message → Action Message → Prop}
    (h : (machine setup).Run A tr s) : Issued tr s := by
  refine h.invariant (Issued.start setup) ?_
  intro tr os s s' a hrun hinv _ hstep
  have hhandles := RemoteApprover.run_handles (run_approver hrun)
  refine hinv.step (fun c call handle hcall hhandle => ?_)
    (fun event result hpc => ((run_stream hrun).terminal hpc).2) (step_cases hstep)
  have hnamed := hhandles.drawn c call handle hcall hhandle
  exact (names_sublist tr).subset (List.mem_filterMap.mpr ⟨_, hnamed, rfl⟩)

end Worker

end PeakcodeDaemon
