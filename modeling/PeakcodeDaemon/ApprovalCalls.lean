import PeakcodeDaemon.Authorization

/-!
# The calls of `approve` that are under way

What a step does to the calls there are, for the modules in which an agent
awaits its calls one after another.

- **under way** (`Busy`, `Step.busy`): what has not ended was under way
  before the step, or was requested by it; only a request adds a call.
- **what becomes of a call** (`Becomes`, `Step.becomes`): of one call, a
  step is nothing, a move, a registration, a dropped guard or a reply.
  Each of these takes it to a later stage of the same request (`Later`).
- **replies** (`Unanswered`, `run_unanswered`): a call that has not
  registered was not replied to, so a call that registers starts clean.
- **handles** (`Step.handle_origin`): the handle of a call was its own
  before the step, unless the step named it.

`callsEnded` is what an agent waits for before it goes on, and
`Step.acts` is its use: whoever takes a step is under way.
-/

namespace PeakcodeDaemon

/-- The notice was delivered. -/
def Stage.isPast : Stage → Bool
  | .waiting _ | .leaving .. | .ended _ => true
  | _ => false

theorem Stage.ended_of_isEnded {stage : Stage} (h : stage.isEnded = true) :
    ∃ outcome, stage = .ended outcome := by
  cases stage with
  | ended outcome => exact ⟨outcome, rfl⟩
  | _ => cases h

namespace RemoteApprover

variable {s s' : RemoteApprover} {a : Action} {os : List Obs} {c : Nat} {call call' : ApproveCall}

/-- The call has not ended. -/
def Busy (s : RemoteApprover) (c : Nat) (call : ApproveCall) : Prop :=
  s.calls c = some call ∧ call.stage.isEnded = false

/-- No call of the turn is under way. -/
def callsEnded (s : RemoteApprover) (turn : Nat) : Bool :=
  (List.range s.nextToken).all fun c => match s.calls c with
    | some call => call.turn != turn || call.stage.isEnded
    | none => true

/-- A call there is has a number below the next. -/
theorem born (hunborn : ∀ c, s.nextToken ≤ c → s.calls c = none) (hcall : s.calls c = some call) :
    c < s.nextToken := by
  by_contra hlt
  cases hcall.symm.trans (hunborn c (Nat.le_of_not_lt hlt))

/-- A turn whose calls have ended has no busy call. -/
theorem turn_ne_of_callsEnded {turn : Nat} (hunborn : ∀ c, s.nextToken ≤ c → s.calls c = none)
    (h : s.callsEnded turn = true) (hbusy : s.Busy c call) : call.turn ≠ turn := by
  rw [callsEnded, List.all_eq_true] at h
  have := h c (List.mem_range.mpr (born hunborn hbusy.1))
  rw [hbusy.1] at this
  simpa [hbusy.2] using this

/-- A call that has ended does not move. -/
theorem Moves.busy {stage : Stage} (h : Moves s c call a stage os) :
    call.stage.isEnded = false := by
  cases h with
  | aborted hstage hguards =>
      cases hcs : call.stage with
      | ended outcome => rw [hcs] at hstage; cases hstage
      | _ => rfl
  | abortedEarly hguards hended => exact hended
  | listed hstage htool => rw [hstage]; rfl
  | unlisted hstage => rw [hstage]; rfl
  | named hstage => rw [hstage]; rfl
  | occupied hstage hpending => rw [hstage]; rfl
  | notified hstage => rw [hstage]; rfl
  | undelivered hstage => rw [hstage]; rfl
  | received hstage hreply => rw [hstage]; rfl
  | closed hstage hreply hsender => rw [hstage]; rfl

/-- What is under way was, or was just requested. -/
theorem Step.busy (h : Step s a s' os) (hbusy : s'.Busy c call') :
    (∃ call, s.Busy c call ∧ call'.turn = call.turn) ∨
    ∃ turn providerCallId tool arguments, a = .request turn providerCallId tool arguments ∧
      c = s.nextToken ∧ call'.turn = turn := by
  obtain ⟨hcall', hstage'⟩ := hbusy
  have hset : ∀ {s₁ : RemoteApprover} {c₁ : Nat} {call₁ : ApproveCall} {stage : Stage},
      s₁.calls = s.calls → s.Busy c₁ call₁ → (s₁.setStage c₁ call₁ stage).calls c = some call' →
      ∃ call, s.Busy c call ∧ call'.turn = call.turn := by
    intro s₁ c₁ call₁ stage heq hbusy h
    rcases setStage_calls h with ⟨rfl, rfl⟩ | ⟨-, h⟩
    · exact ⟨call₁, hbusy, rfl⟩
    · exact ⟨call', ⟨by rwa [← heq], hstage'⟩, rfl⟩
  cases h with
  | request turn providerCallId tool arguments =>
      rcases update_eq_some hcall' with ⟨rfl, rfl⟩ | ⟨-, hcall'⟩
      · exact Or.inr ⟨_, _, _, _, rfl, rfl, rfl⟩
      · exact Or.inl ⟨call', ⟨hcall', hstage'⟩, rfl⟩
  | move hcall hmoves => exact Or.inl (hset rfl ⟨hcall, hmoves.busy⟩ hcall')
  | register hcall hstage hvacant =>
      exact Or.inl (hset rfl ⟨hcall, by rw [hstage]; rfl⟩ hcall')
  | dropGuard hcall hstage =>
      exact Or.inl (hset (removeOwn_calls ..) ⟨hcall, by rw [hstage]; rfl⟩ hcall')
  | resolve hpending hcall halive =>
      rcases update_eq_some hcall' with ⟨rfl, rfl⟩ | ⟨-, hcall'⟩
      · exact Or.inl ⟨_, ⟨hcall, hstage'⟩, rfl⟩
      · exact Or.inl ⟨call', ⟨hcall', hstage'⟩, rfl⟩
  | unknown hnone => exact Or.inl ⟨call', ⟨hcall', hstage'⟩, rfl⟩
  | late hpending hdead => exact Or.inl ⟨call', ⟨hcall', hstage'⟩, rfl⟩
  | cancelPending => exact Or.inl ⟨call', ⟨hcall', hstage'⟩, rfl⟩

/-- A call that only changes its stage stays under way, or ends. -/
theorem busy_setStage {stage : Stage} (hbusy : s.Busy c call) {c' : Nat}
    (hcall' : (s.setStage c call stage).Busy c' call') :
    ∃ call, s.Busy c' call ∧ call'.turn = call.turn := by
  rcases setStage_calls hcall'.1 with ⟨rfl, rfl⟩ | ⟨-, hold⟩
  · exact ⟨call, hbusy, rfl⟩
  · exact ⟨call', ⟨hold, hcall'.2⟩, rfl⟩

/-- Resolving is a step of the approver, whatever comes of it. -/
theorem resolve_step (s : RemoteApprover) (callId : Text) (decision : IpcApprovalDecision) :
    Step s (.resolve callId decision) (s.resolve callId decision).1 (s.resolve callId decision).2 :=
  step_cases rfl

/-- It makes no call busy. -/
theorem resolve_busy {callId : Text} {decision : IpcApprovalDecision}
    (hcall' : (s.resolve callId decision).1.Busy c call') :
    ∃ call, s.Busy c call ∧ call'.turn = call.turn := by
  rcases (resolve_step s callId decision).busy hcall' with hold | ⟨_, _, _, _, ha, -⟩
  · exact hold
  · cases ha

/-- What takes a step is under way, unless it is a request or the daemon's. -/
theorem Step.acts (h : Step s a s' os) (hrequest : ∀ turn providerCallId tool arguments,
      a ≠ .request turn providerCallId tool arguments)
    (hresolve : ∀ callId decision, a ≠ .resolve callId decision) (hcancel : a ≠ .cancelPending) :
    ∃ c call, s.Busy c call := by
  cases h with
  | request turn providerCallId tool arguments => exact absurd rfl (hrequest _ _ _ _)
  | move hcall hmoves => exact ⟨_, _, hcall, hmoves.busy⟩
  | register hcall hstage hvacant => exact ⟨_, _, hcall, by rw [hstage]; rfl⟩
  | dropGuard hcall hstage => exact ⟨_, _, hcall, by rw [hstage]; rfl⟩
  | unknown hnone => exact absurd rfl (hresolve _ _)
  | late hpending hdead => exact absurd rfl (hresolve _ _)
  | resolve hpending hcall halive => exact absurd rfl (hresolve _ _)
  | cancelPending => exact absurd rfl hcancel

/-! ## What becomes of a call -/

/-- The call whose future takes the step. -/
def Action.call? : Action → Option Nat
  | .check c | .name c _ | .register c | .notify c | .notifyFail c | .receive c | .dropGuard c
  | .abort c => some c
  | _ => none

/-- A move is made by the call it names. -/
theorem Moves.call? {stage : Stage} (h : Moves s c call a stage os) : a.call? = some c := by
  cases h <;> rfl

/-- What a step does to a call there is. -/
inductive Becomes (s : RemoteApprover) (c : Nat) (call : ApproveCall) : Action → ApproveCall → Prop
  | same {a : Action} (ha : a.call? ≠ some c) : Becomes s c call a call
  | moved {a : Action} {stage : Stage} {os : List Obs} (hmoves : Moves s c call a stage os) :
      Becomes s c call a { call with stage := stage }
  | registered {handle : Text} (hstage : call.stage = .named handle) :
      Becomes s c call (.register c) { call with stage := .registered handle }
  | dropped {handle : Text} {outcome : Option ApprovalDecision}
      (hstage : call.stage = .leaving handle outcome) :
      Becomes s c call (.dropGuard c) { call with stage := .ended outcome }
  | replied {callId : Text} {decision : IpcApprovalDecision} {approval : PendingApproval}
      (hpending : s.pending callId = some approval) (htoken : approval.token = c)
      (halive : call.stage.receives = true) : Becomes s c call (.resolve callId decision)
        { call with reply := some (s.coreDecision decision approval.tool) }

/-- Of a call that is there a step makes what its own move or a decision makes of
it. -/
theorem Step.becomes (h : Step s a s' os) (hborn : c < s.nextToken)
    (hcall : s.calls c = some call) :
    ∃ call', s'.calls c = some call' ∧ Becomes s c call a call' := by
  have hset : ∀ {s₁ : RemoteApprover} {c₁ : Nat} {call₁ : ApproveCall} {stage : Stage},
      s₁.calls = s.calls → s.calls c₁ = some call₁ → a.call? = some c₁ →
      (c = c₁ → call₁ = call → Becomes s c call a { call with stage := stage }) →
      ∃ call', (s₁.setStage c₁ call₁ stage).calls c = some call' ∧ Becomes s c call a call' := by
    intro s₁ c₁ call₁ stage heq hcall₁ ha hown
    by_cases hc : c = c₁
    · subst hc
      obtain rfl := Option.some.inj (hcall.symm.trans hcall₁)
      exact ⟨_, Function.update_self .., hown rfl rfl⟩
    · have hother : a.call? ≠ some c := by
        rw [ha]
        exact fun h => hc (Option.some.inj h).symm
      exact ⟨call, (Function.update_of_ne hc _ _).trans (by rw [heq]; exact hcall), .same hother⟩
  cases h with
  | request turn providerCallId tool arguments =>
      exact ⟨call, (Function.update_of_ne hborn.ne _ _).trans hcall, .same nofun⟩
  | move hcall₁ hmoves =>
      refine hset rfl hcall₁ hmoves.call? ?_
      rintro rfl rfl
      exact .moved hmoves
  | register hcall₁ hstage hvacant =>
      refine hset rfl hcall₁ rfl ?_
      rintro rfl rfl
      exact .registered hstage
  | dropGuard hcall₁ hstage =>
      refine hset (removeOwn_calls ..) hcall₁ rfl ?_
      rintro rfl rfl
      exact .dropped hstage
  | @resolve callId decision approval call₁ hpending hcall₁ halive =>
      by_cases hc : c = approval.token
      · subst hc
        obtain rfl := Option.some.inj (hcall.symm.trans hcall₁)
        exact ⟨_, Function.update_self .., .replied hpending rfl halive⟩
      · exact ⟨call, (Function.update_of_ne hc _ _).trans hcall, .same nofun⟩
  | unknown hnone => exact ⟨call, hcall, .same nofun⟩
  | late hpending hdead => exact ⟨call, hcall, .same nofun⟩
  | cancelPending => exact ⟨call, hcall, .same nofun⟩

/-- A call whose notice was delivered does not go back. -/
theorem Moves.isPast {stage : Stage} (h : Moves s c call a stage os)
    (hpast : call.stage.isPast = true) : stage.isPast = true := by
  cases h with
  | unlisted hstage => rw [hstage] at hpast; cases hpast
  | named hstage => rw [hstage] at hpast; cases hpast
  | _ => rfl

/-- Nor does it by what others do. -/
theorem Step.isPast (h : Step s a s' os) (hunborn : ∀ c, s.nextToken ≤ c → s.calls c = none)
    (hcall : s.calls c = some call) (hpast : call.stage.isPast = true) :
    ∃ call', s'.calls c = some call' ∧ call'.stage.isPast = true := by
  obtain ⟨call', hcall', hbecomes⟩ := h.becomes (born hunborn hcall) hcall
  refine ⟨call', hcall', ?_⟩
  cases hbecomes with
  | same ha => exact hpast
  | moved hmoves => exact hmoves.isPast hpast
  | registered hstage => rw [hstage] at hpast; cases hpast
  | dropped hstage => rfl
  | replied hpending htoken halive => exact hpast

/-- A later stage of the same request. -/
structure Later (call call' : ApproveCall) : Prop where
  turn : call'.turn = call.turn
  providerCallId : call'.providerCallId = call.providerCallId
  unnamed : call'.stage.handle? = none → call.stage.handle? = none

theorem Later.refl (call : ApproveCall) : Later call call := ⟨rfl, rfl, fun h => h⟩

/-- A call without a handle had none. -/
theorem Moves.unnamed {stage : Stage} (h : Moves s c call a stage os)
    (hended : stage.isEnded = false) (hnone : stage.handle? = none) :
    call.stage.handle? = none := by
  cases h with
  | unlisted hstage => rw [hstage]; rfl
  | listed hstage htool => cases hended
  | occupied hstage hpending => cases hended
  | abortedEarly hguards hstage => cases hended
  | _ => cases hnone

/-- A call that is busy after a step was busy before, and goes on with what it has.
-/
theorem Becomes.later (h : Becomes s c call a call') (hended : call'.stage.isEnded = false) :
    call.stage.isEnded = false ∧ Later call call' := by
  cases h with
  | same ha => exact ⟨hended, .refl call⟩
  | moved hmoves => exact ⟨hmoves.busy, rfl, rfl, hmoves.unnamed hended⟩
  | registered hstage => exact ⟨by rw [hstage]; rfl, rfl, rfl, fun h => by cases h⟩
  | dropped hstage => cases hended
  | replied hpending htoken halive => exact ⟨hended, rfl, rfl, fun h => h⟩

/-- What is under way is a later stage of what was, or was just requested. -/
theorem Step.busy_later (h : Step s a s' os) (hunborn : ∀ c, s.nextToken ≤ c → s.calls c = none)
    (hbusy : s'.Busy c call') : (∃ call, s.Busy c call ∧ Later call call') ∨
    ∃ turn providerCallId tool arguments, a = .request turn providerCallId tool arguments ∧
      c = s.nextToken ∧ call' = ⟨turn, providerCallId, tool, arguments, .fetched, none⟩ := by
  cases hcall : s.calls c with
  | some call =>
      obtain ⟨call₁, hcall₁, hbecomes⟩ := h.becomes (born hunborn hcall) hcall
      obtain rfl := Option.some.inj (hcall₁.symm.trans hbusy.1)
      obtain ⟨hended, hlater⟩ := hbecomes.later hbusy.2
      exact Or.inl ⟨call, ⟨hcall, hended⟩, hlater⟩
  | none =>
      rcases h.busy hbusy with ⟨call, hcall', -⟩ |
        ⟨turn, providerCallId, tool, arguments, rfl, rfl, -⟩
      · cases hcall.symm.trans hcall'.1
      · refine Or.inr ⟨turn, providerCallId, tool, arguments, rfl, rfl, ?_⟩
        rcases h.calls_origin hbusy.1 with ⟨call, hcall', -⟩ | ⟨_, _, _, _, ha, hcall'⟩
        · cases hcall.symm.trans hcall'
        · cases ha
          exact hcall'

/-- A call that has not registered was not replied to. -/
def Unanswered (s : RemoteApprover) : Prop :=
  ∀ c call, s.Busy c call → call.stage.guards = none → call.reply = none

/-- A call without a guard had none, unless it has just ended. -/
theorem Moves.unguarded {stage : Stage} (h : Moves s c call a stage os)
    (hguards : stage.guards = none) : stage.isEnded = true ∨ call.stage.guards = none := by
  cases h with
  | listed hstage htool => exact Or.inl rfl
  | occupied hstage hpending => exact Or.inl rfl
  | abortedEarly hguards hended => exact Or.inl rfl
  | unlisted hstage => rw [hstage]; exact Or.inr rfl
  | named hstage => rw [hstage]; exact Or.inr rfl
  | notified hstage => cases hguards
  | undelivered hstage => cases hguards
  | received hstage hreply => cases hguards
  | closed hstage hreply hsender => cases hguards
  | aborted hstage hguards' => cases hguards

/-- Every step leaves a call without a guard unanswered. -/
theorem Unanswered.step (h : Unanswered s) (hstep : Step s a s' os) : Unanswered s' := by
  intro c call' ⟨hcall', hended⟩ hguards
  cases hstep with
  | request turn providerCallId tool arguments =>
      rcases update_eq_some hcall' with ⟨rfl, rfl⟩ | ⟨-, hcall'⟩
      · rfl
      · exact h c call' ⟨hcall', hended⟩ hguards
  | move hcall hmoves =>
      rcases setStage_calls hcall' with ⟨rfl, rfl⟩ | ⟨-, hcall'⟩
      · rcases hmoves.unguarded hguards with hend | hnone
        · rw [hend] at hended
          cases hended
        · have hreply := h _ _ ⟨hcall, hmoves.busy⟩ hnone
          exact hreply
      · exact h c call' ⟨hcall', hended⟩ hguards
  | register hcall hstage hvacant =>
      rcases setStage_calls hcall' with ⟨rfl, rfl⟩ | ⟨-, hcall'⟩
      · cases hguards
      · exact h c call' ⟨hcall', hended⟩ hguards
  | dropGuard hcall hstage =>
      rcases setStage_calls hcall' with ⟨rfl, rfl⟩ | ⟨-, hcall'⟩
      · cases hended
      · rw [removeOwn_calls] at hcall'
        exact h c call' ⟨hcall', hended⟩ hguards
  | resolve hpending hcall halive =>
      rcases update_eq_some hcall' with ⟨rfl, rfl⟩ | ⟨-, hcall'⟩
      · obtain ⟨handle, hsome⟩ := Stage.guards_of_receives halive
        cases hguards.symm.trans hsome
      · exact h c call' ⟨hcall', hended⟩ hguards
  | unknown hnone => exact h c call' ⟨hcall', hended⟩ hguards
  | late hpending hdead => exact h c call' ⟨hcall', hended⟩ hguards
  | cancelPending => exact h c call' ⟨hcall', hended⟩ hguards

/-- In every run, whatever the environment does. -/
theorem run_unanswered {tools : List Text} {A : List Obs → RemoteApprover → Action → Prop}
    {tr : List Obs} (h : (machine tools).Run A tr s) : Unanswered s := by
  refine h.invariant (I := fun _ s => Unanswered s) (fun _ _ h => by cases h.1) ?_
  intro tr os s s' a _ hinv _ hstep
  exact hinv.step (step_cases hstep)

/-! ## Where handles come from -/

/-- A handle a call shows it had, or it is being given it. -/
theorem Moves.handle_origin {stage : Stage} (h : Moves s c call a stage os) {handle : Text}
    (hhandle : stage.handle? = some handle) :
    call.stage.handle? = some handle ∨ a = .name c handle := by
  cases h with
  | named hstage =>
      obtain rfl := Option.some.inj hhandle
      exact Or.inr rfl
  | aborted hstage hguards =>
      obtain rfl := Option.some.inj hhandle
      exact Or.inl (Stage.handle?_of_guards hguards)
  | notified hstage => exact Or.inl (by rw [hstage]; exact hhandle)
  | undelivered hstage => exact Or.inl (by rw [hstage]; exact hhandle)
  | received hstage hreply => exact Or.inl (by rw [hstage]; exact hhandle)
  | closed hstage hreply hsender => exact Or.inl (by rw [hstage]; exact hhandle)
  | listed hstage htool => cases hhandle
  | unlisted hstage => cases hhandle
  | occupied hstage hpending => cases hhandle
  | abortedEarly hguards hended => cases hhandle

/-- The handle of a call was its own before, unless it was just named. -/
theorem Step.handle_origin (h : Step s a s' os) {handle : Text} (hcall' : s'.calls c = some call')
    (hhandle : call'.stage.handle? = some handle) :
    (∃ call, s.calls c = some call ∧ call.stage.handle? = some handle ∧ call'.turn = call.turn ∧
      call'.notice handle = call.notice handle) ∨ a = .name c handle := by
  cases h with
  | request turn providerCallId tool arguments =>
      rcases update_eq_some hcall' with ⟨rfl, rfl⟩ | ⟨-, hcall'⟩
      · cases hhandle
      · exact Or.inl ⟨call', hcall', hhandle, rfl, rfl⟩
  | move hcall hmoves =>
      rcases setStage_calls hcall' with ⟨rfl, rfl⟩ | ⟨-, hcall'⟩
      · rcases hmoves.handle_origin hhandle with hold | hname
        · exact Or.inl ⟨_, hcall, hold, rfl, rfl⟩
        · exact Or.inr hname
      · exact Or.inl ⟨call', hcall', hhandle, rfl, rfl⟩
  | register hcall hstage hvacant =>
      rcases setStage_calls hcall' with ⟨rfl, rfl⟩ | ⟨-, hcall'⟩
      · exact Or.inl ⟨_, hcall, by rw [hstage]; exact hhandle, rfl, rfl⟩
      · exact Or.inl ⟨call', hcall', hhandle, rfl, rfl⟩
  | dropGuard hcall hstage =>
      rcases setStage_calls hcall' with ⟨rfl, rfl⟩ | ⟨-, hcall'⟩
      · cases hhandle
      · rw [removeOwn_calls] at hcall'
        exact Or.inl ⟨call', hcall', hhandle, rfl, rfl⟩
  | resolve hpending hcall halive =>
      rcases update_eq_some hcall' with ⟨rfl, rfl⟩ | ⟨-, hcall'⟩
      · exact Or.inl ⟨_, hcall, hhandle, rfl, rfl⟩
      · exact Or.inl ⟨call', hcall', hhandle, rfl, rfl⟩
  | unknown hnone => exact Or.inl ⟨call', hcall', hhandle, rfl, rfl⟩
  | late hpending hdead => exact Or.inl ⟨call', hcall', hhandle, rfl, rfl⟩
  | cancelPending => exact Or.inl ⟨call', hcall', hhandle, rfl, rfl⟩

/-- Handles are drawn by naming a call and by nothing else. -/
theorem Step.names_eq_nil (h : Step s a s' os) (ha : ∀ c handle, a ≠ .name c handle) :
    names os = [] := by
  cases h with
  | move hcall hmoves =>
      cases hmoves with
      | named hstage => exact absurd rfl (ha _ _)
      | _ => rfl
  | @dropGuard c call handle outcome hcall hstage => cases outcome <;> rfl
  | _ => rfl

end RemoteApprover

end PeakcodeDaemon
