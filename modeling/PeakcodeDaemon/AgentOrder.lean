import PeakcodeDaemon.ApprovalCalls
import PeakcodeDaemon.WorkerRuns

/-!
# The order of the agent

The agent of a turn runs in one task: it emits its events into a channel
and awaits each call of `approve`. What it asked for, under which handles,
and the one approval that may be on its way to the coordinator are
described here.

The daemon knows a handle from its `NeedsApproval`. A decision that names
a handle before that is sent would let the agent run ahead of the
approval, so it is an assumption on the daemon that no decision does
(`announced`). What the task does is the other one (`awaits`).

- **what was asked** (`run_askedHandles`, `run_asked`): each approval of a
  program was asked for under a handle drawn for a call, and with handles
  drawn once none is asked for twice (`asked_once`).
- **the approval on its way** (`Inflight`): what of the turn is neither in
  its channel nor past it. With one call under way (`OneCall`) it is that
  call's notice or nothing, and the steps of the call move it along:
  `Inflight.notify` puts it on its way, and a decision finds it gone.

`Inflight` is indexed by the notices that are on their way, so that the
invariant of the order can add it to what the channel buffers and have
the program.
-/

namespace PeakcodeDaemon

def Item.isApproval (notice : ApprovalNotice) : Item → Bool
  | .approval notice' => notice' == notice
  | .core _ => false

def Item.handle? : Item → Option Text
  | .approval notice => some notice.callId
  | .core _ => none

namespace Worker

variable {Message : Type} {setup : Setup Message} {tr os : List (Obs Message)}
  {s s' : Worker Message} {a : Action Message} {turn : Nat}

def sentTurn? : Obs Message → Option Nat
  | .enqueued held => some held.turn
  | _ => none

/-- The turns of what was enqueued, in order. -/
def sentTurns (tr : List (Obs Message)) : List Nat := tr.filterMap sentTurn?

def asked? : Obs Message → Option (Nat × ApprovalNotice)
  | .asked turn notice => some (turn, notice)
  | _ => none

/-- The decisions that were needed, with their turns. -/
def asked (tr : List (Obs Message)) : List (Nat × ApprovalNotice) := tr.filterMap asked?

/-- The agent of a turn runs in its task, and awaits each call of `approve`;
a call is dropped only with the task. -/
def awaits (s : Worker Message) : Action Message → Bool
  | .emit turn _ | .closeEvents turn | .finish turn _ => s.approver.callsEnded turn
  | .call (.request turn ..) => s.approver.callsEnded turn && !(s.tasks turn).closed
      && (s.tasks turn).outcome.isNone
  | .call (.abort c) => (s.approver.calls c).all fun call => (s.tasks call.turn).aborted
  | _ => true

/-- A decision names no approval that is still to be sent. -/
def announced (tr : List (Obs Message)) : Action Message → Bool
  | .command (.approve callId _) => (asked tr).all fun request =>
      request.2.callId != callId || (sent request.1 tr).any (Item.isApproval request.2)
  | _ => true

/-! ## What was asked -/

def askedHandles (tr : List (Obs Message)) : List Text :=
  (asked tr).map fun request => request.2.callId

theorem askedHandles_append : askedHandles (tr ++ os) = askedHandles tr ++ askedHandles os := by
  rw [askedHandles, asked, List.filterMap_append, List.map_append]
  rfl

theorem Step.askedHandles (h : Step setup s a s' os) :
    askedHandles os = RemoteApprover.names (approverTrace os) := by
  have hmapped : ∀ {b : RemoteApprover.Action} {A : RemoteApprover} {os' : List RemoteApprover.Obs},
      s.approver.step b = some (A, os') → (∀ c handle, b ≠ .name c handle) →
      Worker.askedHandles (os'.map Obs.approver : List (Obs Message)) =
        RemoteApprover.names (approverTrace (os'.map Obs.approver : List (Obs Message))) := by
    intro b A os' hstep hb
    rw [approverTrace, approverTrace_map, (RemoteApprover.step_cases hstep).names_eq_nil hb,
      Worker.askedHandles, asked, List.filterMap_map, List.map_eq_nil_iff,
      List.filterMap_eq_nil_iff]
    intro o _
    rfl
  cases h with
  | @approve callId decision hpc =>
      have hresolve : ∀ c handle,
          RemoteApprover.Action.resolve callId decision ≠ .name c handle := by
        intro c handle h
        cases h
      exact hmapped rfl hresolve
  | call hallows hstep =>
      refine hmapped hstep ?_
      rintro c handle rfl
      exact hallows
  | @holdEvent a handle turn event rest hpc hactive hpending hevents ha =>
      have hasked : ∀ handles : List Text,
          Worker.askedHandles (handles.map Obs.drew : List (Obs Message)) = [] := by
        intro handles
        rw [Worker.askedHandles, asked, List.filterMap_map, List.map_eq_nil_iff,
          List.filterMap_eq_nil_iff]
        intro o _
        rfl
      exact (hasked _).trans
        (congrArg RemoteApprover.names (approverTrace_drew _)).symm
  | _ => rfl

/-- The handles asked under are those drawn for calls. -/
theorem run_askedHandles {C : List (Obs Message) → Worker Message → Action Message → Prop}
    (h : (machine setup).Run C tr s) :
    askedHandles tr = RemoteApprover.names (approverTrace tr) := by
  refine h.invariant
    (I := fun tr _ => askedHandles tr = RemoteApprover.names (approverTrace tr)) rfl ?_
  intro tr os s s' a _ hinv _ hstep
  rw [askedHandles_append, hinv, (step_cases hstep).askedHandles, approverTrace, approverTrace,
    approverTrace, List.filterMap_append, RemoteApprover.names, RemoteApprover.names,
    RemoteApprover.names, List.filterMap_append]

theorem Step.handle_asked (h : Step setup s a s' os) {c : Nat} {call' : ApproveCall} {handle : Text}
    (hcall' : s'.approver.calls c = some call') (hhandle : call'.stage.handle? = some handle) :
    (∃ call, s.approver.calls c = some call ∧ call.stage.handle? = some handle ∧
      call'.turn = call.turn ∧ call'.notice handle = call.notice handle) ∨
    .asked call'.turn (call'.notice handle) ∈ os := by
  cases h with
  | @approve callId decision hpc =>
      have hstep : s.approver.step (.resolve callId decision) =
        some (s.approver.resolve callId decision) := rfl
      rcases (RemoteApprover.step_cases hstep).handle_origin hcall' hhandle with hold | ha
      · exact Or.inl hold
      · cases ha
  | call hallows hstep =>
      rcases (RemoteApprover.step_cases hstep).handle_origin hcall' hhandle with hold | rfl
      · exact Or.inl hold
      · exact absurd hallows id
  | name hcall hstage =>
      rcases RemoteApprover.setStage_calls hcall' with ⟨rfl, rfl⟩ | ⟨-, hcall'⟩
      · obtain rfl := Option.some.inj hhandle
        exact Or.inr (by simp [ApproveCall.notice])
      · exact Or.inl ⟨call', hcall', hhandle, rfl, rfl⟩
  | notify hcall hstage =>
      rcases RemoteApprover.setStage_calls hcall' with ⟨rfl, rfl⟩ | ⟨-, hcall'⟩
      · exact Or.inl ⟨_, hcall, by rw [hstage]; exact hhandle, rfl, rfl⟩
      · exact Or.inl ⟨call', hcall', hhandle, rfl, rfl⟩
  | joinTurn hpc houtcome =>
      rw [join_approver] at hcall'
      exact Or.inl ⟨call', hcall', hhandle, rfl, rfl⟩
  | _ => exact Or.inl ⟨call', hcall', hhandle, rfl, rfl⟩

/-- A call that has its handle was asked for. -/
theorem run_asked {C : List (Obs Message) → Worker Message → Action Message → Prop}
    (h : (machine setup).Run C tr s) : ∀ c call handle, s.approver.calls c = some call →
      call.stage.handle? = some handle → .asked call.turn (call.notice handle) ∈ tr := by
  refine h.invariant
    (I := fun tr s => ∀ c call handle, s.approver.calls c = some call →
      call.stage.handle? = some handle → .asked call.turn (call.notice handle) ∈ tr)
    (fun _ _ _ h => by cases h) ?_
  intro tr os s s' a _ hinv _ hstep c call' handle hcall' hhandle
  rcases (step_cases hstep).handle_asked hcall' hhandle with
    ⟨call, hcall, hold, hturn, hnotice⟩ | hmem
  · rw [hturn, hnotice]
    exact List.mem_append_left _ (hinv c call handle hcall hold)
  · exact List.mem_append_right _ hmem

/-- The approvals of a program were asked for. -/
theorem program_handles (turn : Nat) : ∀ tr : List (Obs Message),
    ((program turn tr).filterMap Item.handle?).Sublist (askedHandles tr)
  | [] => .slnil
  | o :: tr => by
      have htail := program_handles turn tr
      cases o with
      | emitted turn' event =>
          by_cases hturn : turn' = turn
          · have hitem : programItem? turn (.emitted turn' event : Obs Message) =
                some (.core event) :=
              if_pos hturn
            rw [program, List.filterMap_cons_some hitem]
            exact htail
          · have hitem : programItem? turn (.emitted turn' event : Obs Message) = none :=
              if_neg hturn
            rw [program, List.filterMap_cons_none hitem]
            exact htail
      | asked turn' notice =>
          by_cases hturn : turn' = turn
          · have hitem : programItem? turn (.asked turn' notice : Obs Message) =
                some (.approval notice) :=
              if_pos hturn
            rw [program, List.filterMap_cons_some hitem]
            exact htail.cons_cons _
          · have hitem : programItem? turn (.asked turn' notice : Obs Message) = none :=
              if_neg hturn
            rw [program, List.filterMap_cons_none hitem]
            exact htail.cons _
      | _ => exact htail

/-- No approval is asked for twice. -/
theorem asked_once {items rest : List Item} {notice : ApprovalNotice}
    (hfresh : (askedHandles tr).Nodup) (h : program turn tr = items ++ rest)
    (hrest : .approval notice ∈ rest) : .approval notice ∉ items := by
  intro hmem
  have hnodup := hfresh.sublist (program_handles turn tr)
  rw [h, List.filterMap_append, List.nodup_append] at hnodup
  exact hnodup.2.2 notice.callId (List.mem_filterMap.mpr ⟨_, hmem, rfl⟩) notice.callId
    (List.mem_filterMap.mpr ⟨_, hrest, rfl⟩) rfl

/-! ## The approval on its way -/

/-- The call has its entry in the pending map. -/
def Entered (A : RemoteApprover) (c : Nat) (handle : Text) : Prop :=
  ∃ e, A.pending handle = some e ∧ e.token = c

/-- What of the turn is neither in its channel nor past it, given the notices
on their way. -/
inductive Inflight (A : RemoteApprover) (turn : Nat) :
    List (Nat × ApprovalNotice) → List Item → Prop
  | nothing (hcalls : ∀ c call handle, A.calls c = some call →
      call.stage ≠ .named handle ∧ call.stage ≠ .registered handle) : Inflight A turn [] []
  | asking {c : Nat} {call : ApproveCall} {handle : Text} (hcall : A.calls c = some call)
      (hturn : call.turn = turn) (hreply : call.reply = none)
      (hstage : call.stage = .named handle ∨
        call.stage = .registered handle ∧ Entered A c handle) :
      Inflight A turn [] [.approval (call.notice handle)]
  | noticed {c : Nat} {call : ApproveCall} {handle : Text} (hcall : A.calls c = some call)
      (hturn : call.turn = turn) (hreply : call.reply = none)
      (hstage : call.stage = .waiting handle)
      (hentered : Entered A c handle) :
      Inflight A turn [(turn, call.notice handle)] [.approval (call.notice handle)]

/-- One call is under way at most, and it is the turn's. -/
structure OneCall (A : RemoteApprover) (turn : Nat) : Prop where
  own : ∀ c call, A.Busy c call → call.turn = turn
  one : ∀ c call c' call', A.Busy c call → A.Busy c' call' → c = c'

variable {A A' : RemoteApprover} {ns : List (Nat × ApprovalNotice)} {rest : List Item}

theorem OneCall.same (h : OneCall A turn) {c c' : Nat} {call call' : ApproveCall}
    (hbusy : A.Busy c call) (hbusy' : A.Busy c' call') : c = c' ∧ call = call' := by
  obtain rfl := h.one c call c' call' hbusy hbusy'
  exact ⟨rfl, Option.some.inj (hbusy.1.symm.trans hbusy'.1)⟩

/-- With no call under way nothing is on its way. -/
theorem Inflight.eq_nil (h : Inflight A turn ns rest) (hnone : ∀ c call, ¬A.Busy c call) :
    ns = [] ∧ rest = [] := by
  cases h with
  | nothing hcalls => exact ⟨rfl, rfl⟩
  | asking hcall hturn hreply hstage =>
      refine absurd ⟨hcall, ?_⟩ (hnone _ _)
      rcases hstage with hstage | ⟨hstage, -⟩
      · rw [hstage]; rfl
      · rw [hstage]; rfl
  | noticed hcall hturn hreply hstage hentered =>
      exact absurd ⟨hcall, by rw [hstage]; rfl⟩ (hnone _ _)

/-- The notice on its way is that of the call that waits. -/
theorem Inflight.of_cons {barrier : Nat × ApprovalNotice}
    (h : Inflight A turn (barrier :: ns) rest) :
    ns = [] ∧ ∃ c call handle, A.calls c = some call ∧ call.stage = .waiting handle ∧
      barrier = (turn, call.notice handle) ∧ rest = [.approval (call.notice handle)] := by
  generalize heq : barrier :: ns = all at h
  cases h with
  | nothing hcalls => cases heq
  | asking hcall hturn hreply hstage => cases heq
  | @noticed c call handle hcall hturn hreply hstage hentered =>
      obtain ⟨rfl, rfl⟩ := List.cons.inj heq
      exact ⟨rfl, c, call, handle, hcall, hstage, rfl, rfl⟩

/-- A call that is not asking moves without asking. -/
theorem Inflight.setStage_none {c : Nat} {call : ApproveCall} {stage : Stage}
    (hcalls : ∀ c call handle, A.calls c = some call →
      call.stage ≠ .named handle ∧ call.stage ≠ .registered handle)
    (hstage : ∀ handle, stage ≠ .named handle ∧ stage ≠ .registered handle)
    (hsame : A'.calls = A.calls) : Inflight (A'.setStage c call stage) turn [] [] := by
  refine .nothing fun c' call' handle hcall' => ?_
  rcases RemoteApprover.setStage_calls hcall' with ⟨rfl, rfl⟩ | ⟨-, hcall'⟩
  · exact hstage handle
  · exact hcalls c' call' handle (by rwa [← hsame])

/-- The step is of one call and shows nothing to the coordinator. -/
def isPrivate : RemoteApprover.Action → Bool
  | .check _ | .register _ | .receive _ | .dropGuard _ => true
  | _ => false

theorem Inflight.move (h : Inflight A turn ns rest) (hone : OneCall A turn)
    (hvacant : ∀ c call handle, A.calls c = some call → call.stage = .named handle →
      A.pending handle = none) {b : RemoteApprover.Action} {os : List RemoteApprover.Obs} {c : Nat}
    {call : ApproveCall} {stage : Stage} (hcall : A.calls c = some call)
    (hmoves : RemoteApprover.Moves A c call b stage os) (hb : isPrivate b = true) :
    Inflight (A.setStage c call stage) turn ns rest := by
  -- the call on its way, if there is one, is this one
  have hthis : ∀ {c' call'}, A.calls c' = some call' → call'.stage.isEnded = false → call = call' :=
    fun hcall' hbusy' => (hone.same ⟨hcall, hmoves.busy⟩ ⟨hcall', hbusy'⟩).2
  cases h with
  | nothing hcalls =>
      refine .setStage_none hcalls (fun handle => ?_) rfl
      cases hmoves with
      | occupied hstage hpending => exact absurd hstage (hcalls _ _ _ hcall).1
      | named hstage => cases hb
      | _ => exact ⟨nofun, nofun⟩
  | @asking c' call' handle hcall' hturn hreply hstage' =>
      obtain rfl := hthis hcall' (by rcases hstage' with h | ⟨h, -⟩ <;> rw [h] <;> rfl)
      cases hmoves with
      | occupied hstage hpending =>
          rw [hvacant c call _ hcall hstage] at hpending
          cases hpending
      | named hstage => cases hb
      | notified hstage => cases hb
      | undelivered hstage => cases hb
      | aborted hstage hguards => cases hb
      | abortedEarly hguards hended => cases hb
      | listed hstage htool => rcases hstage' with h | ⟨h, -⟩ <;> cases hstage.symm.trans h
      | unlisted hstage => rcases hstage' with h | ⟨h, -⟩ <;> cases hstage.symm.trans h
      | received hstage hreply' => rcases hstage' with h | ⟨h, -⟩ <;> cases hstage.symm.trans h
      | closed hstage hreply' hsender =>
          rcases hstage' with h | ⟨h, -⟩ <;> cases hstage.symm.trans h
  | @noticed c' call' handle hcall' hturn hreply hstage' hentered =>
      obtain rfl := hthis hcall' (by rw [hstage']; rfl)
      cases hmoves with
      | received hstage hreply' => cases hreply.symm.trans hreply'
      | @closed handle' hstage hreply' hsender =>
          obtain rfl := Stage.waiting.inj (hstage.symm.trans hstage')
          obtain rfl := (hone.same ⟨hcall, by rw [hstage]; rfl⟩ ⟨hcall', by rw [hstage]; rfl⟩).1
          obtain ⟨e, he, htoken⟩ := hentered
          simp [RemoteApprover.senderDropped, he, htoken] at hsender
      | occupied hstage hpending => cases hstage.symm.trans hstage'
      | named hstage => cases hb
      | notified hstage => cases hb
      | undelivered hstage => cases hb
      | aborted hstage hguards => cases hb
      | abortedEarly hguards hended => cases hb
      | listed hstage htool => cases hstage.symm.trans hstage'
      | unlisted hstage => cases hstage.symm.trans hstage'

/-- A step of one call by itself leaves what is on its way. -/
theorem Inflight.step (h : Inflight A turn ns rest) (hone : OneCall A turn)
    (hvacant : ∀ c call handle, A.calls c = some call → call.stage = .named handle →
      A.pending handle = none) {b : RemoteApprover.Action} {os : List RemoteApprover.Obs}
    (hstep : RemoteApprover.Step A b A' os) (hb : isPrivate b = true) :
    Inflight A' turn ns rest := by
  cases hstep with
  | request => cases hb
  | unknown hnone => cases hb
  | late hpending hdead => cases hb
  | resolve hpending hcall halive => cases hb
  | cancelPending => cases hb
  | move hcall hmoves => exact h.move hone hvacant hcall hmoves hb
  | @register c call handle hcall hstage hnone =>
      cases h with
      | nothing hcalls => exact absurd hstage (hcalls c call handle hcall).1
      | @asking c' call' handle' hcall' hturn hreply hstage' =>
          obtain ⟨rfl, rfl⟩ := hone.same ⟨hcall, by rw [hstage]; rfl⟩
            ⟨hcall', by rcases hstage' with h | ⟨h, -⟩ <;> rw [h] <;> rfl⟩
          rcases hstage' with h | ⟨h, -⟩
          · obtain rfl := Stage.named.inj (hstage.symm.trans h)
            refine @Inflight.asking _ _ c { call with stage := .registered handle } handle
              (Function.update_self ..) hturn hreply
              (Or.inr ⟨rfl, ⟨c, call.tool⟩, Function.update_self .., rfl⟩)
          · cases hstage.symm.trans h
      | noticed hcall' hturn hreply hstage' hentered =>
          obtain ⟨rfl, rfl⟩ := hone.same ⟨hcall, by rw [hstage]; rfl⟩ ⟨hcall', by rw [hstage']; rfl⟩
          cases hstage.symm.trans hstage'
  | @dropGuard c call handle outcome hcall hstage =>
      cases h with
      | nothing hcalls =>
          exact .setStage_none hcalls (fun handle => ⟨nofun, nofun⟩)
            (RemoteApprover.removeOwn_calls ..)
      | asking hcall' hturn hreply hstage' =>
          obtain ⟨rfl, rfl⟩ := hone.same ⟨hcall, by rw [hstage]; rfl⟩
            ⟨hcall', by rcases hstage' with h | ⟨h, -⟩ <;> rw [h] <;> rfl⟩
          rcases hstage' with h | ⟨h, -⟩ <;> cases hstage.symm.trans h
      | noticed hcall' hturn hreply hstage' hentered =>
          obtain ⟨rfl, rfl⟩ := hone.same ⟨hcall, by rw [hstage]; rfl⟩ ⟨hcall', by rw [hstage']; rfl⟩
          cases hstage.symm.trans hstage'

/-- With a call under way that is not asking nothing is on its way. -/
theorem Inflight.eq_nil_of_busy (h : Inflight A turn ns rest) (hone : OneCall A turn) {c : Nat}
    {call : ApproveCall} (hbusy : A.Busy c call) (hstage : call.stage.handle? = none) :
    ns = [] ∧ rest = [] := by
  cases h with
  | nothing hcalls => exact ⟨rfl, rfl⟩
  | asking hcall hturn hreply hasking =>
      obtain ⟨rfl, rfl⟩ := hone.same hbusy
        ⟨hcall, by rcases hasking with h | ⟨h, -⟩ <;> rw [h] <;> rfl⟩
      rcases hasking with h | ⟨h, -⟩ <;> rw [h] at hstage <;> cases hstage
  | noticed hcall hturn hreply hwaiting hentered =>
      obtain ⟨rfl, rfl⟩ := hone.same hbusy ⟨hcall, by rw [hwaiting]; rfl⟩
      rw [hwaiting] at hstage
      cases hstage

/-- The notice of a registered call is put on its way. -/
theorem Inflight.notify (h : Inflight A turn ns rest) (hone : OneCall A turn) {c : Nat}
    {call : ApproveCall} {handle : Text} (hcall : A.calls c = some call)
    (hstage : call.stage = .registered handle) :
    Inflight (A.setStage c call (.waiting handle)) turn
      (ns ++ [(turn, call.notice handle)]) rest := by
  have hbusy : A.Busy c call := ⟨hcall, by rw [hstage]; rfl⟩
  cases h with
  | nothing hcalls => exact absurd hstage (hcalls c call handle hcall).2
  | @asking c' call' handle' hcall' hturn hreply hasking =>
      obtain ⟨rfl, rfl⟩ := hone.same hbusy
        ⟨hcall', by rcases hasking with h | ⟨h, -⟩ <;> rw [h] <;> rfl⟩
      rcases hasking with h | ⟨h, hentered⟩
      · cases hstage.symm.trans h
      · obtain rfl := Stage.registered.inj (hstage.symm.trans h)
        exact @Inflight.noticed _ _ c { call with stage := .waiting handle } handle
          (Function.update_self ..) hturn hreply rfl hentered
  | noticed hcall' hturn hreply hwaiting hentered =>
      obtain ⟨rfl, rfl⟩ := hone.same hbusy ⟨hcall', by rw [hwaiting]; rfl⟩
      cases hstage.symm.trans hwaiting

/-- A decision that names no approval on its way leaves it there. -/
theorem Inflight.resolve (h : Inflight A turn ns rest) (hone : OneCall A turn) {callId : Text}
    {decision : IpcApprovalDecision} {os : List RemoteApprover.Obs}
    (hguarded : ∀ handle e, A.pending handle = some e →
      ∃ call, A.calls e.token = some call ∧ call.stage.guards = some handle)
    (hunsent : ∀ c call, A.calls c = some call → call.turn = turn →
      call.stage.handle? = some callId → .approval (call.notice callId) ∉ rest)
    (hstep : RemoteApprover.Step A (.resolve callId decision) A' os) :
    Inflight A' turn ns rest := by
  cases hstep with
  | move hcall hmoves => cases hmoves
  | unknown hnone => exact h
  | @late _ _ approval hpending hdead =>
      -- the entry of the call on its way is not the one that goes
      have hentered : ∀ {c call handle}, A.calls c = some call → call.stage.receives = true →
          Entered A c handle → Entered { A with
            pending := Function.update A.pending callId none } c handle := by
        rintro c call handle hcall halive ⟨e, he, rfl⟩
        refine ⟨e, ?_, rfl⟩
        dsimp only
        rw [Function.update_of_ne ?_]
        · exact he
        · rintro rfl
          obtain rfl := Option.some.inj (hpending.symm.trans he)
          rw [hdead call hcall] at halive
          cases halive
      cases h with
      | nothing hcalls => exact .nothing hcalls
      | asking hcall hturn hreply hasking =>
          refine .asking hcall hturn hreply ?_
          rcases hasking with h | ⟨h, hin⟩
          · exact Or.inl h
          · exact Or.inr ⟨h, hentered hcall (by rw [h]; rfl) hin⟩
      | noticed hcall hturn hreply hwaiting hin =>
          exact .noticed hcall hturn hreply hwaiting (hentered hcall (by rw [hwaiting]; rfl) hin)
  | @resolve _ _ approval call hpending hcall halive =>
      obtain ⟨handle, hguards⟩ := Stage.guards_of_receives halive
      obtain ⟨call', hcall', hown⟩ := hguarded callId approval hpending
      obtain rfl := Option.some.inj (hcall.symm.trans hcall')
      obtain rfl := Option.some.inj (hguards.symm.trans hown)
      have hhandle := Stage.handle?_of_guards hguards
      have hbusy : A.Busy approval.token call :=
        ⟨hcall, by cases hcs : call.stage with
          | ended outcome => rw [hcs] at halive; cases halive
          | _ => rfl⟩
      cases h with
      | nothing hcalls =>
          refine .nothing fun c' call' handle' hcall' => ?_
          rcases RemoteApprover.update_eq_some hcall' with ⟨rfl, rfl⟩ | ⟨-, hcall'⟩
          · exact hcalls _ call handle' hcall
          · exact hcalls c' call' handle' hcall'
      | asking hcall' hturn hreply hasking =>
          obtain ⟨rfl, rfl⟩ := hone.same hbusy
            ⟨hcall', by rcases hasking with h | ⟨h, -⟩ <;> rw [h] <;> rfl⟩
          rcases hasking with h | ⟨h, -⟩
          · rw [h] at halive
            cases halive
          · rw [h] at hhandle
            obtain rfl := Option.some.inj hhandle
            exact absurd (List.mem_singleton_self _)
              (hunsent _ call hcall hturn (by rw [h]; rfl))
      | noticed hcall' hturn hreply hwaiting hentered =>
          obtain ⟨rfl, rfl⟩ := hone.same hbusy ⟨hcall', by rw [hwaiting]; rfl⟩
          rw [hwaiting] at hhandle
          obtain rfl := Option.some.inj hhandle
          exact absurd (List.mem_singleton_self _)
            (hunsent _ call hcall hturn (by rw [hwaiting]; rfl))

end Worker

end PeakcodeDaemon
