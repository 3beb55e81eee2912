import PeakcodeDaemon.RemoteApprover

/-!
# What a call is allowed by

A call of `approve` comes back with permission for one of two reasons: its
tool had been granted for the session (`Listed`), or its own entry was
resolved while it stood in the pending map (`Granted`). The entries of the
map carry the proof: each belongs to a call that registered under its
handle, and no clearing has come since (`Live`).

- **what a step can do** (`Step`, `step_cases`, `Step.step`): the rules of
  the approver, and that they are exactly what the step function computes.
  The moves of one call that leave the map alone are a relation of their
  own (`Moves`), because most invariants treat them alike.
- **what the state owes to the past** (`Sound`, `Sound.step`,
  `run_sound`): every entry is live, every reply was granted, every call
  about to leave with a permission has a reason. The steps are grouped by
  what they do to the map: `Sound.setStage` for a call that moves on,
  `Sound.remove` for entries that go, `Sound.register` and
  `Sound.resolve`.
- **whose handle it is** (`Handles`, `run_handles`): with handles drawn
  once each, a call has the handle drawn for it and a call about to
  register finds its place vacant.

Only the last part assumes anything of the handles. The reasons for a
permission hold whatever is drawn.
-/

namespace PeakcodeDaemon

namespace RemoteApprover

/-! ## What a step can do -/

/-- A step of one call that leaves the pending map alone. -/
inductive Moves (s : RemoteApprover) (c : Nat) (call : ApproveCall) :
    Action → Stage → List Obs → Prop
  | listed (hstage : call.stage = .fetched) (htool : call.tool ∈ s.allowedTools) :
      Moves s c call (.check c) (.ended (some .allowAll)) [.returned c call.tool .allowAll]
  | unlisted (hstage : call.stage = .fetched) (htool : call.tool ∉ s.allowedTools) :
      Moves s c call (.check c) .unlisted []
  | named {handle : Text} (hstage : call.stage = .unlisted) :
      Moves s c call (.name c handle) (.named handle) [.named c handle]
  | occupied {handle : Text} (hstage : call.stage = .named handle)
      (hpending : (s.pending handle).isSome) :
      Moves s c call (.register c) (.ended (some .deny)) [.returned c call.tool .deny]
  | notified {handle : Text} (hstage : call.stage = .registered handle) :
      Moves s c call (.notify c) (.waiting handle) []
  | undelivered {handle : Text} (hstage : call.stage = .registered handle) :
      Moves s c call (.notifyFail c) (.leaving handle (some .deny)) []
  | received {handle : Text} {decision : ApprovalDecision} (hstage : call.stage = .waiting handle)
      (hreply : call.reply = some decision) :
      Moves s c call (.receive c) (.leaving handle (some decision)) []
  | closed {handle : Text} (hstage : call.stage = .waiting handle) (hreply : call.reply = none)
      (hsender : s.senderDropped c handle = true) :
      Moves s c call (.receive c) (.leaving handle (some .deny)) []
  | aborted {handle : Text} (hstage : call.stage.receives = true)
      (hguards : call.stage.guards = some handle) :
      Moves s c call (.abort c) (.leaving handle none) []
  | abortedEarly (hguards : call.stage.guards = none) (hended : call.stage.isEnded = false) :
      Moves s c call (.abort c) (.ended none) []

/-- Everything a step can do. -/
inductive Step (s : RemoteApprover) : Action → RemoteApprover → List Obs → Prop
  | request (turn : Nat) (providerCallId tool : Text) (arguments : Json.Value) :
      Step s (.request turn providerCallId tool arguments) { s with
        nextToken := s.nextToken + 1
        calls := Function.update s.calls s.nextToken
          (some ⟨turn, providerCallId, tool, arguments, .fetched, none⟩) } []
  | move {c : Nat} {call : ApproveCall} {a : Action} {stage : Stage} {os : List Obs}
      (hcall : s.calls c = some call) (hmoves : Moves s c call a stage os) :
      Step s a (s.setStage c call stage) os
  | register {c : Nat} {call : ApproveCall} {handle : Text} (hcall : s.calls c = some call)
      (hstage : call.stage = .named handle) (hvacant : s.pending handle = none) :
      Step s (.register c) { s.setStage c call (.registered handle) with
          pending := Function.update s.pending handle (some ⟨c, call.tool⟩) }
        [.registered c handle]
  | dropGuard {c : Nat} {call : ApproveCall} {handle : Text} {outcome : Option ApprovalDecision}
      (hcall : s.calls c = some call) (hstage : call.stage = .leaving handle outcome) :
      Step s (.dropGuard c) ((s.removeOwn c handle).setStage c call (.ended outcome))
        (outcome.map fun decision => Obs.returned c call.tool decision).toList
  | unknown {callId : Text} {decision : IpcApprovalDecision} (hnone : s.pending callId = none) :
      Step s (.resolve callId decision) s [.unresolved callId decision]
  | late {callId : Text} {decision : IpcApprovalDecision} {approval : PendingApproval}
      (hpending : s.pending callId = some approval)
      (hdead : ∀ call, s.calls approval.token = some call → call.stage.receives = false) :
      Step s (.resolve callId decision)
        { s with pending := Function.update s.pending callId none } [.unresolved callId decision]
  | resolve {callId : Text} {decision : IpcApprovalDecision} {approval : PendingApproval}
      {call : ApproveCall} (hpending : s.pending callId = some approval)
      (hcall : s.calls approval.token = some call) (halive : call.stage.receives = true) :
      Step s (.resolve callId decision) { s with
          pending := Function.update s.pending callId none
          calls := Function.update s.calls approval.token
            (some { call with reply := some (s.coreDecision decision approval.tool) })
          allowedTools := if s.persists decision approval.tool
            then approval.tool :: s.allowedTools else s.allowedTools }
        [.resolved callId decision approval.tool]
  | cancelPending : Step s .cancelPending s.cancelPending [.cleared]

theorem step_cases {s s' : RemoteApprover} {a : Action} {os : List Obs}
    (h : s.step a = some (s', os)) : Step s a s' os := by
  cases a with
  | request turn providerCallId tool arguments =>
      obtain ⟨rfl, rfl⟩ := Prod.mk.inj (Option.some.inj h)
      exact .request ..
  | check c =>
      obtain ⟨call, hcall, h⟩ := Option.bind_eq_some_iff.mp h
      split at h
      · rename_i hstage
        rw [Option.some.injEq, check] at h
        split at h
        · rename_i htool
          obtain ⟨rfl, rfl⟩ := Prod.mk.inj h
          exact .move hcall (.listed hstage (by simpa using htool))
        · rename_i htool
          obtain ⟨rfl, rfl⟩ := Prod.mk.inj h
          exact .move hcall (.unlisted hstage (by simpa using htool))
      · cases h
  | name c handle =>
      obtain ⟨call, hcall, h⟩ := Option.bind_eq_some_iff.mp h
      split at h
      · rename_i hstage
        obtain ⟨rfl, rfl⟩ := Prod.mk.inj (Option.some.inj h)
        exact .move hcall (.named hstage)
      · cases h
  | register c =>
      obtain ⟨call, hcall, h⟩ := Option.bind_eq_some_iff.mp h
      split at h
      · rename_i handle hstage
        rw [Option.some.injEq, register] at h
        split at h
        · rename_i hvacant
          obtain ⟨rfl, rfl⟩ := Prod.mk.inj h
          exact .register hcall hstage hvacant
        · rename_i approval hpending
          obtain ⟨rfl, rfl⟩ := Prod.mk.inj h
          exact .move hcall (.occupied hstage (by rw [hpending]; rfl))
      · cases h
  | notify c =>
      obtain ⟨call, hcall, h⟩ := Option.bind_eq_some_iff.mp h
      split at h
      · rename_i handle hstage
        obtain ⟨rfl, rfl⟩ := Prod.mk.inj (Option.some.inj h)
        exact .move hcall (.notified hstage)
      · cases h
  | notifyFail c =>
      obtain ⟨call, hcall, h⟩ := Option.bind_eq_some_iff.mp h
      split at h
      · rename_i handle hstage
        obtain ⟨rfl, rfl⟩ := Prod.mk.inj (Option.some.inj h)
        exact .move hcall (.undelivered hstage)
      · cases h
  | receive c =>
      obtain ⟨call, hcall, h⟩ := Option.bind_eq_some_iff.mp h
      split at h
      · rename_i handle hstage
        split at h
        · rename_i decision hreply
          obtain ⟨rfl, rfl⟩ := Prod.mk.inj (Option.some.inj h)
          exact .move hcall (.received hstage hreply)
        · rename_i hreply
          split at h
          · rename_i hsender
            obtain ⟨rfl, rfl⟩ := Prod.mk.inj (Option.some.inj h)
            exact .move hcall (.closed hstage hreply hsender)
          · cases h
      · cases h
  | dropGuard c =>
      obtain ⟨call, hcall, h⟩ := Option.bind_eq_some_iff.mp h
      split at h
      · rename_i handle outcome hstage
        obtain ⟨rfl, rfl⟩ := Prod.mk.inj (Option.some.inj h)
        exact .dropGuard hcall hstage
      · cases h
  | abort c =>
      obtain ⟨call, hcall, h⟩ := Option.bind_eq_some_iff.mp h
      obtain ⟨stage, hstage, h⟩ := Option.map_eq_some_iff.mp h
      obtain ⟨rfl, rfl⟩ := Prod.mk.inj h
      refine .move hcall ?_
      cases hcs : call.stage with
      | registered handle =>
          rw [hcs] at hstage
          obtain rfl := Option.some.inj hstage
          exact .aborted (by rw [hcs]; rfl) (by rw [hcs]; rfl)
      | waiting handle =>
          rw [hcs] at hstage
          obtain rfl := Option.some.inj hstage
          exact .aborted (by rw [hcs]; rfl) (by rw [hcs]; rfl)
      | leaving handle outcome => rw [hcs] at hstage; cases hstage
      | ended outcome => rw [hcs] at hstage; cases hstage
      | _ =>
          rw [hcs] at hstage
          obtain rfl := Option.some.inj hstage
          exact .abortedEarly (by rw [hcs]; rfl) (by rw [hcs]; rfl)
  | resolve callId decision =>
      have h : s.resolve callId decision = (s', os) := Option.some.inj h
      rw [resolve] at h
      split at h
      · rename_i hnone
        obtain ⟨rfl, rfl⟩ := Prod.mk.inj h
        exact .unknown hnone
      · rename_i approval hpending
        dsimp only at h
        split at h
        · rename_i hnocall
          obtain ⟨rfl, rfl⟩ := Prod.mk.inj h
          exact .late hpending fun call hcall => by rw [hnocall] at hcall; cases hcall
        · rename_i call hcall
          split at h
          · rename_i halive
            obtain ⟨rfl, rfl⟩ := Prod.mk.inj h
            exact .resolve hpending hcall halive
          · rename_i hdead
            obtain ⟨rfl, rfl⟩ := Prod.mk.inj h
            refine .late hpending fun call' hcall' => ?_
            rw [hcall] at hcall'
            cases hcall'
            simpa using hdead
  | cancelPending =>
      obtain ⟨rfl, rfl⟩ := Prod.mk.inj (Option.some.inj h)
      exact .cancelPending

/-- A move is a step of the approver. -/
theorem Moves.step {s : RemoteApprover} {c : Nat} {call : ApproveCall} {a : Action} {stage : Stage}
    {os : List Obs} (h : Moves s c call a stage os) (hcall : s.calls c = some call) :
    s.step a = some (s.setStage c call stage, os) := by
  cases h with
  | listed hstage htool => simp [RemoteApprover.step, hcall, hstage, check, htool]
  | unlisted hstage htool => simp [RemoteApprover.step, hcall, hstage, check, htool]
  | named hstage => simp [RemoteApprover.step, hcall, hstage]
  | @occupied handle hstage hpending =>
      obtain ⟨approval, happroval⟩ := Option.isSome_iff_exists.mp hpending
      simp [RemoteApprover.step, hcall, hstage, register, happroval]
  | notified hstage => simp [RemoteApprover.step, hcall, hstage]
  | undelivered hstage => simp [RemoteApprover.step, hcall, hstage]
  | received hstage hreply => simp [RemoteApprover.step, hcall, hstage, hreply]
  | closed hstage hreply hsender => simp [RemoteApprover.step, hcall, hstage, hreply, hsender]
  | aborted hreceives hguards =>
      cases hstage : call.stage with
      | registered handle =>
          rw [hstage] at hguards
          obtain rfl := Option.some.inj hguards
          simp [RemoteApprover.step, hcall, hstage, abortStage]
      | waiting handle =>
          rw [hstage] at hguards
          obtain rfl := Option.some.inj hguards
          simp [RemoteApprover.step, hcall, hstage, abortStage]
      | _ => rw [hstage] at hreceives; cases hreceives
  | abortedEarly hguards hended =>
      cases hstage : call.stage with
      | fetched => simp [RemoteApprover.step, hcall, hstage, abortStage]
      | unlisted => simp [RemoteApprover.step, hcall, hstage, abortStage]
      | named handle => simp [RemoteApprover.step, hcall, hstage, abortStage]
      | ended outcome => rw [hstage] at hended; cases hended
      | _ => rw [hstage] at hguards; cases hguards

/-- What a step can do, it does. -/
theorem Step.step {s s' : RemoteApprover} {a : Action} {os : List Obs} (h : Step s a s' os) :
    s.step a = some (s', os) := by
  cases h with
  | request turn providerCallId tool arguments => rfl
  | move hcall hmoves => exact hmoves.step hcall
  | register hcall hstage hvacant =>
      simp [RemoteApprover.step, hcall, hstage, RemoteApprover.register, hvacant]
  | dropGuard hcall hstage =>
      simp [RemoteApprover.step, hcall, hstage, RemoteApprover.dropGuard]
  | unknown hnone => simp [RemoteApprover.step, RemoteApprover.resolve, hnone]
  | @late callId decision approval hpending hdead =>
      cases hcall : s.calls approval.token with
      | none => simp [RemoteApprover.step, RemoteApprover.resolve, hpending, hcall]
      | some call =>
          simp [RemoteApprover.step, RemoteApprover.resolve, hpending, hcall, hdead call hcall]
  | resolve hpending hcall halive =>
      simp [RemoteApprover.step, RemoteApprover.resolve, hpending, hcall, halive]
  | cancelPending => rfl

/-! ## What a permission rests on -/

/-- The tool was granted for the session by a decision that found its call. -/
def Listed (tools : List Text) (tr : List Obs) (tool : Text) : Prop :=
  tool ∈ tools ∧ ∃ handle, .resolved handle .allowAll tool ∈ tr

/-- The call has registered under the handle, and the map was not cleared since. -/
def Live (tr : List Obs) (c : Nat) (handle : Text) : Prop :=
  ∃ past rest, tr = past ++ .registered c handle :: rest ∧ .cleared ∉ rest

/-- The call registered under the handle, and before any clearing the handle
was resolved in its favour. -/
def Granted (tr : List Obs) (c : Nat) (handle tool : Text) : Prop :=
  ∃ past mid rest decision,
    tr = past ++ .registered c handle :: (mid ++ .resolved handle decision tool :: rest) ∧
    .cleared ∉ mid ∧ (decision = .allow ∨ decision = .allowAll)

section

variable {tools : List Text} {tr os : List Obs} {c : Nat} {handle tool : Text}

/-- A grant for the session is never taken back. -/
theorem Listed.append (h : Listed tools tr tool) (os : List Obs) :
    Listed tools (tr ++ os) tool := by
  obtain ⟨htool, handle, hmem⟩ := h
  exact ⟨htool, handle, List.mem_append_left _ hmem⟩

/-- An entry stays live as long as the map is not cleared. -/
theorem Live.append (h : Live tr c handle) (hos : .cleared ∉ os) : Live (tr ++ os) c handle := by
  obtain ⟨past, rest, rfl, hrest⟩ := h
  refine ⟨past, rest ++ os, by simp, ?_⟩
  rw [List.mem_append]
  exact not_or.mpr ⟨hrest, hos⟩

theorem Granted.append (h : Granted tr c handle tool) (os : List Obs) :
    Granted (tr ++ os) c handle tool := by
  obtain ⟨past, mid, rest, decision, rfl, hmid, hdecision⟩ := h
  exact ⟨past, mid, rest ++ os, decision, by simp, hmid, hdecision⟩

theorem Granted.registered_mem (h : Granted tr c handle tool) : .registered c handle ∈ tr := by
  obtain ⟨past, mid, rest, decision, rfl, -, -⟩ := h
  simp

/-- Resolving a live handle in its favour grants it. -/
theorem Live.granted (h : Live tr c handle) {decision : IpcApprovalDecision}
    (hdecision : decision = .allow ∨ decision = .allowAll) :
    Granted (tr ++ [.resolved handle decision tool]) c handle tool := by
  obtain ⟨past, rest, rfl, hrest⟩ := h
  exact ⟨past, rest, [], decision, by simp, hrest, hdecision⟩

/-- A decision that gives permission allows the call. -/
theorem coreDecision_of_ne_deny {s : RemoteApprover} {decision : IpcApprovalDecision}
    (h : s.coreDecision decision tool ≠ .deny) : decision = .allow ∨ decision = .allowAll := by
  cases decision with
  | allow => exact Or.inl rfl
  | deny => exact absurd rfl h
  | allowAll => exact Or.inr rfl

end

/-- What the state owes to the past. -/
structure Sound (tools : List Text) (tr : List Obs) (s : RemoteApprover) : Prop where
  tools_eq : s.registeredTools = tools
  unborn : ∀ c, s.nextToken ≤ c → s.calls c = none
  allowed : ∀ tool ∈ s.allowedTools, Listed tools tr tool
  entry : ∀ handle e, s.pending handle = some e →
    ∃ call, s.calls e.token = some call ∧ call.tool = e.tool ∧ Live tr e.token handle
  reply : ∀ c call decision, s.calls c = some call → call.reply = some decision →
    decision ≠ .deny → ∃ handle, Granted tr c handle call.tool
  leaving : ∀ c call handle decision, s.calls c = some call →
    call.stage = .leaving handle (some decision) → decision ≠ .deny →
      ∃ handle, Granted tr c handle call.tool

variable {tools : List Text} {tr os : List Obs} {s : RemoteApprover}

theorem update_none_eq_some {α β : Type} [DecidableEq α] {f : α → Option β} {a a' : α} {b : β}
    (h : Function.update f a none a' = some b) : a' ≠ a ∧ f a' = some b := by
  by_cases ha : a' = a
  · subst ha
    rw [Function.update_self] at h
    cases h
  · exact ⟨ha, by rwa [Function.update_of_ne ha] at h⟩

theorem update_eq_some {α β : Type} [DecidableEq α] {f : α → Option β} {a a' : α} {b b' : β}
    (h : Function.update f a (some b) a' = some b') :
    a' = a ∧ b' = b ∨ a' ≠ a ∧ f a' = some b' := by
  by_cases ha : a' = a
  · subst ha
    rw [Function.update_self] at h
    exact Or.inl ⟨rfl, (Option.some.inj h).symm⟩
  · exact Or.inr ⟨ha, by rwa [Function.update_of_ne ha] at h⟩

/-- A new call leaves the calls there are. -/
theorem update_unborn {calls : Nat → Option ApproveCall} {n c : Nat} {call call' : ApproveCall}
    (hunborn : ∀ c, n ≤ c → calls c = none) (hcall : calls c = some call) :
    Function.update calls n (some call') c = calls c := by
  refine Function.update_of_ne ?_ _ _
  rintro rfl
  rw [hunborn c (Nat.le_refl c)] at hcall
  cases hcall

@[simp] theorem removeOwn_calls (s : RemoteApprover) (c : Nat) (handle : Text) :
    (s.removeOwn c handle).calls = s.calls := by
  rw [removeOwn]
  split
  · split <;> rfl
  · rfl

/-- The guard takes entries only. -/
theorem removeOwn_eq (s : RemoteApprover) (c : Nat) (handle : Text) :
    s.removeOwn c handle = { s with pending := (s.removeOwn c handle).pending } := by
  unfold removeOwn
  split
  · split <;> rfl
  · rfl

/-- The guard takes the entry of its handle, if the token is its own. -/
theorem removeOwn_pending {s : RemoteApprover} {c : Nat} {handle handle' : Text}
    {e : PendingApproval} : (s.removeOwn c handle).pending handle' = some e ↔
      s.pending handle' = some e ∧ ¬(handle' = handle ∧ e.token = c) := by
  rw [removeOwn]
  cases hpending : s.pending handle with
  | none =>
      refine ⟨fun he => ⟨he, ?_⟩, fun he => he.1⟩
      rintro ⟨rfl, -⟩
      cases hpending.symm.trans he
  | some approval =>
      dsimp only
      split
      · rename_i htoken
        constructor
        · intro he
          obtain ⟨hne, he⟩ := update_none_eq_some he
          exact ⟨he, fun h => hne h.1⟩
        · rintro ⟨he, hnot⟩
          refine (Function.update_of_ne ?_ _ _).trans he
          rintro rfl
          obtain rfl := Option.some.inj (hpending.symm.trans he)
          exact hnot ⟨rfl, htoken⟩
      · rename_i htoken
        refine ⟨fun he => ⟨he, ?_⟩, fun he => he.1⟩
        rintro ⟨rfl, hown⟩
        obtain rfl := Option.some.inj (hpending.symm.trans he)
        exact htoken hown

/-- Dropping its guard leaves a call no entry under its handle. -/
theorem removeOwn_pending_ne (s : RemoteApprover) (c : Nat) (handle : Text) (e : PendingApproval)
    (he : e.token = c) : (s.removeOwn c handle).pending handle ≠ some e :=
  fun h => (removeOwn_pending.mp h).2 ⟨rfl, he⟩

/-- Of the calls only the one that moves is changed. -/
theorem setStage_calls {c c' : Nat} {call call' : ApproveCall} {stage : Stage}
    (h : (s.setStage c call stage).calls c' = some call') :
    c' = c ∧ call' = { call with stage := stage } ∨ c' ≠ c ∧ s.calls c' = some call' := by
  rcases update_eq_some (f := s.calls) h with ⟨hc, rfl⟩ | hc
  · exact Or.inl ⟨hc, rfl⟩
  · exact Or.inr hc

/-- A call that another one's stage change leaves in place, with its tool. -/
theorem setStage_calls_tool {c c' : Nat} {call call' : ApproveCall} (hcall : s.calls c = some call)
    (stage : Stage) (h : s.calls c' = some call') :
    ∃ call'', (s.setStage c call stage).calls c' = some call'' ∧ call''.tool = call'.tool := by
  by_cases hc : c' = c
  · subst hc
    obtain rfl := Option.some.inj (hcall.symm.trans h)
    exact ⟨_, Function.update_self .., rfl⟩
  · exact ⟨call', (Function.update_of_ne hc _ _).trans h, rfl⟩

/-- What a call asks for never changes; a new one is what was asked for. -/
theorem Step.calls_origin {a : Action} {s' : RemoteApprover} (h : Step s a s' os) {c : Nat}
    {call' : ApproveCall} (hcall' : s'.calls c = some call') :
    (∃ call, s.calls c = some call ∧ call'.turn = call.turn ∧
      ∀ handle, call'.notice handle = call.notice handle) ∨
    ∃ turn providerCallId tool arguments, a = .request turn providerCallId tool arguments ∧
      call' = ⟨turn, providerCallId, tool, arguments, .fetched, none⟩ := by
  have hset : ∀ {s₁ : RemoteApprover} {c₁ : Nat} {call : ApproveCall} {stage : Stage},
      s₁.calls = s.calls → s.calls c₁ = some call →
      (s₁.setStage c₁ call stage).calls c = some call' →
      ∃ call, s.calls c = some call ∧ call'.turn = call.turn ∧
        ∀ handle, call'.notice handle = call.notice handle := by
    intro s₁ c₁ call stage heq hcall h
    rcases setStage_calls h with ⟨rfl, rfl⟩ | ⟨-, h⟩
    · exact ⟨call, hcall, rfl, fun _ => rfl⟩
    · exact ⟨call', by rwa [← heq], rfl, fun _ => rfl⟩
  cases h with
  | request turn providerCallId tool arguments =>
      rcases update_eq_some hcall' with ⟨rfl, rfl⟩ | ⟨-, hcall'⟩
      · exact Or.inr ⟨_, _, _, _, rfl, rfl⟩
      · exact Or.inl ⟨call', hcall', rfl, fun _ => rfl⟩
  | move hcall hmoves => exact Or.inl (hset rfl hcall hcall')
  | register hcall hstage hvacant => exact Or.inl (hset rfl hcall hcall')
  | dropGuard hcall hstage => exact Or.inl (hset (removeOwn_calls ..) hcall hcall')
  | unknown hnone => exact Or.inl ⟨call', hcall', rfl, fun _ => rfl⟩
  | late hpending hdead => exact Or.inl ⟨call', hcall', rfl, fun _ => rfl⟩
  | resolve hpending hcall halive =>
      rcases update_eq_some hcall' with ⟨rfl, rfl⟩ | ⟨-, hcall'⟩
      · exact Or.inl ⟨_, hcall, rfl, fun _ => rfl⟩
      · exact Or.inl ⟨call', hcall', rfl, fun _ => rfl⟩
  | cancelPending => exact Or.inl ⟨call', hcall', rfl, fun _ => rfl⟩

theorem Sound.start (tools : List Text) : Sound tools [] (new tools) where
  tools_eq := rfl
  unborn := fun _ _ => rfl
  allowed := fun _ h => by cases h
  entry := fun _ _ h => by cases h
  reply := fun _ _ _ h => by cases h
  leaving := fun _ _ _ _ h => by cases h

/-- A call moves on: if it moves to leave with a permission, it must have one. -/
theorem Sound.setStage (h : Sound tools tr s) {c : Nat} {call : ApproveCall}
    (hcall : s.calls c = some call) {stage : Stage} (hos : .cleared ∉ os)
    (hleave : ∀ handle decision, stage = .leaving handle (some decision) → decision ≠ .deny →
      ∃ handle, Granted tr c handle call.tool) :
    Sound tools (tr ++ os) (s.setStage c call stage) where
  tools_eq := h.tools_eq
  unborn := by
    intro c' hc'
    have hne : c' ≠ c := by
      rintro rfl
      rw [h.unborn c' hc'] at hcall
      cases hcall
    exact (Function.update_of_ne hne _ _).trans (h.unborn c' hc')
  allowed := fun tool htool => (h.allowed tool htool).append os
  entry := by
    intro handle e he
    obtain ⟨call', hcall', htool, hlive⟩ := h.entry handle e he
    obtain ⟨call'', hcall'', htool'⟩ := setStage_calls_tool hcall stage hcall'
    exact ⟨call'', hcall'', htool'.trans htool, hlive.append hos⟩
  reply := by
    intro c' call' decision hc' hreply hne
    rcases setStage_calls hc' with ⟨rfl, rfl⟩ | ⟨-, hc'⟩
    · obtain ⟨handle, hgranted⟩ := h.reply _ _ _ hcall hreply hne
      exact ⟨handle, hgranted.append os⟩
    · obtain ⟨handle, hgranted⟩ := h.reply _ _ _ hc' hreply hne
      exact ⟨handle, hgranted.append os⟩
  leaving := by
    intro c' call' handle decision hc' hstage hne
    rcases setStage_calls hc' with ⟨rfl, rfl⟩ | ⟨-, hc'⟩
    · obtain ⟨handle, hgranted⟩ := hleave _ _ hstage hne
      exact ⟨handle, hgranted.append os⟩
    · obtain ⟨handle, hgranted⟩ := h.leaving _ _ _ _ hc' hstage hne
      exact ⟨handle, hgranted.append os⟩

/-- Entries may go. -/
theorem Sound.remove (h : Sound tools tr s) {pending : Text → Option PendingApproval}
    (hsub : ∀ handle e, pending handle = some e → s.pending handle = some e)
    (hos : .cleared ∉ os) : Sound tools (tr ++ os) { s with pending := pending } where
  tools_eq := h.tools_eq
  unborn := h.unborn
  allowed := fun tool htool => (h.allowed tool htool).append os
  entry := by
    intro handle e he
    obtain ⟨call, hcall, htool, hlive⟩ := h.entry handle e (hsub handle e he)
    exact ⟨call, hcall, htool, hlive.append hos⟩
  reply := by
    intro c call decision hcall hreply hne
    obtain ⟨handle, hgranted⟩ := h.reply _ _ _ hcall hreply hne
    exact ⟨handle, hgranted.append os⟩
  leaving := by
    intro c call handle decision hcall hstage hne
    obtain ⟨handle, hgranted⟩ := h.leaving _ _ _ _ hcall hstage hne
    exact ⟨handle, hgranted.append os⟩

/-- A call takes its place in the map: from here on its entry is live. -/
theorem Sound.register (h : Sound tools tr s) {c : Nat} {call : ApproveCall} {handle : Text}
    (hcall : s.calls c = some call) :
    Sound tools (tr ++ [.registered c handle])
      { s.setStage c call (.registered handle) with
        pending := Function.update s.pending handle (some ⟨c, call.tool⟩) } := by
  have hmoved : Sound tools (tr ++ [.registered c handle])
      (s.setStage c call (.registered handle)) :=
    h.setStage hcall (by simp) (fun _ _ hstage => by cases hstage)
  refine ⟨hmoved.tools_eq, hmoved.unborn, hmoved.allowed, ?_, hmoved.reply, hmoved.leaving⟩
  intro handle' e he
  rcases update_eq_some (f := s.pending) he with ⟨rfl, rfl⟩ | ⟨-, he⟩
  · exact ⟨_, Function.update_self .., rfl, tr, [], by simp, by simp⟩
  · exact hmoved.entry handle' e he

/-- A decision reaches the call of the entry it names. -/
theorem Sound.resolve (h : Sound tools tr s) {callId : Text} {decision : IpcApprovalDecision}
    {approval : PendingApproval} {call : ApproveCall} (hpending : s.pending callId = some approval)
    (hcall : s.calls approval.token = some call) :
    Sound tools (tr ++ [.resolved callId decision approval.tool])
      { s with
        pending := Function.update s.pending callId none
        calls := Function.update s.calls approval.token
          (some { call with reply := some (s.coreDecision decision approval.tool) })
        allowedTools := if s.persists decision approval.tool
          then approval.tool :: s.allowedTools else s.allowedTools } := by
  obtain ⟨call', hcall', htool, hlive⟩ := h.entry callId approval hpending
  obtain rfl := Option.some.inj (hcall.symm.trans hcall')
  refine ⟨h.tools_eq, ?_, ?_, ?_, ?_, ?_⟩
  · intro c hc
    have hne : c ≠ approval.token := by
      rintro rfl
      rw [h.unborn _ hc] at hcall
      cases hcall
    exact (Function.update_of_ne hne _ _).trans (h.unborn c hc)
  · intro tool hmem
    dsimp only at hmem
    split at hmem
    · rename_i hpersists
      obtain ⟨hall, hregistered⟩ : decision = .allowAll ∧ approval.tool ∈ tools := by
        simpa [persists, h.tools_eq] using hpersists
      rcases List.mem_cons.mp hmem with rfl | hmem
      · exact ⟨hregistered, callId, by simp [hall]⟩
      · exact (h.allowed tool hmem).append _
    · exact (h.allowed tool hmem).append _
  · intro handle e he
    obtain ⟨-, he⟩ := update_none_eq_some he
    obtain ⟨call', hcall', htool', hlive'⟩ := h.entry handle e he
    have hlive' : Live (tr ++ [.resolved callId decision approval.tool]) e.token handle :=
      hlive'.append (by simp)
    by_cases htoken : e.token = approval.token
    · rw [htoken] at hcall' hlive' ⊢
      obtain rfl := Option.some.inj (hcall.symm.trans hcall')
      exact ⟨_, Function.update_self .., htool', hlive'⟩
    · exact ⟨call', (Function.update_of_ne htoken _ _).trans hcall', htool', hlive'⟩
  · intro c call' decision' hc hreply hne
    rcases update_eq_some hc with ⟨rfl, rfl⟩ | ⟨-, hc⟩
    · obtain rfl := Option.some.inj hreply
      refine ⟨callId, ?_⟩
      show Granted _ _ _ call.tool
      rw [htool]
      exact hlive.granted (coreDecision_of_ne_deny hne)
    · obtain ⟨handle, hgranted⟩ := h.reply _ _ _ hc hreply hne
      exact ⟨handle, hgranted.append _⟩
  · intro c call' handle decision' hc hstage hne
    rcases update_eq_some hc with ⟨rfl, rfl⟩ | ⟨-, hc⟩
    · obtain ⟨handle', hgranted⟩ := h.leaving _ _ _ _ hcall hstage hne
      exact ⟨handle', hgranted.append _⟩
    · obtain ⟨handle', hgranted⟩ := h.leaving _ _ _ _ hc hstage hne
      exact ⟨handle', hgranted.append _⟩

/-- A call that moves to leave with a permission has one. -/
theorem Sound.move_leaving (h : Sound tools tr s) {c : Nat} {call : ApproveCall} {stage : Stage}
    {a : Action} (hcall : s.calls c = some call) (hmoves : Moves s c call a stage os) :
    .cleared ∉ os ∧ ∀ handle decision, stage = .leaving handle (some decision) →
      decision ≠ .deny → ∃ handle, Granted tr c handle call.tool := by
  cases hmoves with
  | received hstage hreply =>
      refine ⟨by simp, fun handle decision heq hne => ?_⟩
      obtain ⟨-, heq⟩ := Stage.leaving.inj heq
      obtain rfl := Option.some.inj heq
      exact h.reply _ _ _ hcall hreply hne
  | undelivered hstage =>
      refine ⟨by simp, fun handle decision heq hne => ?_⟩
      obtain ⟨-, heq⟩ := Stage.leaving.inj heq
      exact absurd (Option.some.inj heq).symm hne
  | closed hstage hreply hsender =>
      refine ⟨by simp, fun handle decision heq hne => ?_⟩
      obtain ⟨-, heq⟩ := Stage.leaving.inj heq
      exact absurd (Option.some.inj heq).symm hne
  | aborted hstage hguards =>
      refine ⟨by simp, fun handle decision heq hne => ?_⟩
      obtain ⟨-, heq⟩ := Stage.leaving.inj heq
      cases heq
  | listed hstage htool => exact ⟨by simp, fun _ _ heq => by cases heq⟩
  | unlisted hstage => exact ⟨by simp, fun _ _ heq => by cases heq⟩
  | named hstage => exact ⟨by simp, fun _ _ heq => by cases heq⟩
  | occupied hstage hpending => exact ⟨by simp, fun _ _ heq => by cases heq⟩
  | notified hstage => exact ⟨by simp, fun _ _ heq => by cases heq⟩
  | abortedEarly hguards hended => exact ⟨by simp, fun _ _ heq => by cases heq⟩

/-- Every step keeps what the state owes to the past. -/
theorem Sound.step (h : Sound tools tr s) {a : Action} {s' : RemoteApprover}
    (hstep : Step s a s' os) :
    Sound tools (tr ++ os) s' := by
  cases hstep with
  | request turn providerCallId tool arguments =>
      rw [List.append_nil]
      refine ⟨h.tools_eq, ?_, h.allowed, ?_, ?_, ?_⟩
      · intro c hc
        have hne : c ≠ s.nextToken := by rintro rfl; exact absurd hc (by simp)
        exact (Function.update_of_ne hne _ _).trans (h.unborn c (Nat.le_of_succ_le hc))
      · intro handle e he
        obtain ⟨call, hcall, htool, hlive⟩ := h.entry handle e he
        exact ⟨call, (update_unborn h.unborn hcall).trans hcall, htool, hlive⟩
      · intro c call decision hc hreply hne
        rcases update_eq_some hc with ⟨rfl, rfl⟩ | ⟨-, hc⟩
        · cases hreply
        · exact h.reply _ _ _ hc hreply hne
      · intro c call handle decision hc hstage hne
        rcases update_eq_some hc with ⟨rfl, rfl⟩ | ⟨-, hc⟩
        · cases hstage
        · exact h.leaving _ _ _ _ hc hstage hne
  | move hcall hmoves =>
      obtain ⟨hos, hleave⟩ := h.move_leaving hcall hmoves
      exact h.setStage hcall hos hleave
  | register hcall hstage hvacant => exact h.register hcall
  | @dropGuard c call handle outcome hcall hstage =>
      have hos : Obs.cleared ∉ (outcome.map fun decision =>
          Obs.returned c call.tool decision).toList := by
        cases outcome <;> simp
      have hremoved : Sound tools (tr ++ []) (s.removeOwn c handle) := by
        rw [removeOwn]
        split
        · split
          · exact h.remove (fun _ _ he => (update_none_eq_some he).2) (by simp)
          · rwa [List.append_nil]
        · rwa [List.append_nil]
      rw [List.append_nil] at hremoved
      exact hremoved.setStage (by rwa [removeOwn_calls]) hos (fun _ _ heq => by cases heq)
  | unknown hnone => exact h.remove (fun _ _ he => he) (by simp)
  | late hpending hdead => exact h.remove (fun _ _ he => (update_none_eq_some he).2) (by simp)
  | resolve hpending hcall halive => exact h.resolve hpending hcall
  | cancelPending =>
      refine ⟨h.tools_eq, h.unborn, fun tool htool => (h.allowed tool htool).append _, ?_, ?_, ?_⟩
      · intro handle e he
        cases he
      · intro c call decision hcall hreply hne
        obtain ⟨handle, hgranted⟩ := h.reply _ _ _ hcall hreply hne
        exact ⟨handle, hgranted.append _⟩
      · intro c call handle decision hcall hstage hne
        obtain ⟨handle, hgranted⟩ := h.leaving _ _ _ _ hcall hstage hne
        exact ⟨handle, hgranted.append _⟩

/-! ## Runs -/

/-- A permission returned has its reason in the past. -/
def Justified (tools : List Text) (past : List Obs) : Obs → Prop
  | .returned c tool decision =>
      decision ≠ .deny → Listed tools past tool ∨ ∃ handle, Granted past c handle tool
  | _ => True

/-- What a step returns as permitted has its reason already. -/
theorem Sound.justified (h : Sound tools tr s) {a : Action} {s' : RemoteApprover}
    (hstep : Step s a s' os) :
    Always (fun past o => Justified tools (tr ++ past) o) os := by
  have hnil : Always (fun past o => Justified tools (tr ++ past) o) [] := always_nil _
  cases hstep with
  | request turn providerCallId tool arguments => exact hnil
  | @move c call a stage _ hcall hmoves =>
      cases hmoves with
      | listed hstage htool =>
          refine always_concat hnil ?_
          rw [List.append_nil]
          exact fun _ => Or.inl (h.allowed _ htool)
      | occupied hstage hpending =>
          exact always_concat hnil fun hne => absurd rfl hne
      | named hstage => exact always_concat hnil trivial
      | _ => exact hnil
  | register hcall hstage hvacant => exact always_concat hnil trivial
  | @dropGuard c call handle outcome hcall hstage =>
      cases outcome with
      | none => exact hnil
      | some decision =>
          refine always_concat hnil ?_
          rw [List.append_nil]
          exact fun hne => Or.inr (h.leaving c call handle decision hcall hstage hne)
  | unknown hnone => exact always_concat hnil trivial
  | late hpending hdead => exact always_concat hnil trivial
  | resolve hpending hcall halive => exact always_concat hnil trivial
  | cancelPending => exact always_concat hnil trivial

/-- In every run, whatever the environment does. -/
theorem run_sound {A : List Obs → RemoteApprover → Action → Prop}
    (h : (machine tools).Run A tr s) : Sound tools tr s ∧ Always (Justified tools) tr := by
  refine h.invariant (I := fun tr s => Sound tools tr s ∧ Always (Justified tools) tr)
    ⟨Sound.start tools, always_nil _⟩ ?_
  intro tr os s s' a _ hinv _ hstep
  have hstep := step_cases hstep
  exact ⟨hinv.1.step hstep, always_append hinv.2 (hinv.1.justified hstep)⟩

/-! ## Whose handle it is -/

/-- The handles drawn for calls. -/
def names (tr : List Obs) : List Text :=
  tr.filterMap fun o => match o with
    | .named _ handle => some handle
    | _ => none

/-- Two calls with one handle are one call, if handles are drawn once. -/
theorem named_inj {c c' : Nat} {handle : Text} (h : (names tr).Nodup) (hc : .named c handle ∈ tr)
    (hc' : .named c' handle ∈ tr) : c = c' := by
  have heq := eq_of_nodup_filterMap h hc hc' (x := handle) rfl rfl
  exact (Obs.named.inj heq).1

/-- Each call has the handle that was drawn for it, and each entry a call
that guards it. -/
structure Handles (tr : List Obs) (s : RemoteApprover) : Prop where
  drawn : ∀ c call handle, s.calls c = some call → call.stage.handle? = some handle →
    .named c handle ∈ tr
  registered : ∀ c handle, .registered c handle ∈ tr → .named c handle ∈ tr
  guarded : ∀ handle e, s.pending handle = some e →
    ∃ call, s.calls e.token = some call ∧ call.stage.guards = some handle

theorem Handles.start (tools : List Text) : Handles [] (new tools) where
  drawn := fun _ _ _ h => by cases h
  registered := fun _ _ h => by cases h
  guarded := fun _ _ h => by cases h

/-- A call about to register finds its place vacant. -/
theorem Handles.vacant (h : Handles tr s) (hfresh : (names tr).Nodup) {c : Nat}
    {call : ApproveCall} {handle : Text} (hcall : s.calls c = some call)
    (hstage : call.stage = .named handle) : s.pending handle = none := by
  cases hpending : s.pending handle with
  | none => rfl
  | some e =>
      obtain ⟨call', hcall', hguards⟩ := h.guarded handle e hpending
      have hmine : .named c handle ∈ tr := h.drawn c call handle hcall (by rw [hstage]; rfl)
      have htheirs : .named e.token handle ∈ tr :=
        h.drawn _ call' handle hcall' (Stage.handle?_of_guards hguards)
      obtain rfl := named_inj hfresh hmine htheirs
      obtain rfl := Option.some.inj (hcall.symm.trans hcall')
      rw [hstage] at hguards
      cases hguards

/-- A move keeps the guard there is, and shows the handle it draws. -/
theorem Moves.handles {c : Nat} {call : ApproveCall} {a : Action} {stage : Stage}
    (h : Moves s c call a stage os) :
    (∀ handle, call.stage.guards = some handle → stage.guards = some handle) ∧
    (∀ handle, stage.handle? = some handle →
      call.stage.handle? = some handle ∨ .named c handle ∈ os) ∧
    (∀ c' handle, .registered c' handle ∉ os) := by
  cases h with
  | listed hstage htool => simp [hstage, Stage.guards, Stage.handle?]
  | unlisted hstage => simp [hstage, Stage.guards, Stage.handle?]
  | named hstage => simp [hstage, Stage.guards, Stage.handle?]
  | occupied hstage hpending => simp [hstage, Stage.guards, Stage.handle?]
  | notified hstage => simp [hstage, Stage.guards, Stage.handle?]
  | undelivered hstage => simp [hstage, Stage.guards, Stage.handle?]
  | received hstage hreply => simp [hstage, Stage.guards, Stage.handle?]
  | closed hstage hreply hsender => simp [hstage, Stage.guards, Stage.handle?]
  | aborted hstage hguards =>
      refine ⟨fun handle' h => ?_, fun handle' h => ?_, by simp⟩
      · exact hguards.symm.trans h
      · exact Or.inl ((Stage.handle?_of_guards hguards).trans h)
  | abortedEarly hguards hended => simp [hguards, Stage.handle?]

/-- A call that moves on keeps its handle and its guard, or shows where they came
from. -/
theorem Handles.setStage (h : Handles tr s) {c : Nat} {call : ApproveCall} {stage : Stage}
    (hcall : s.calls c = some call)
    (hguards : ∀ handle e, s.pending handle = some e → e.token = c → stage.guards = some handle)
    (hhandle : ∀ handle, stage.handle? = some handle → .named c handle ∈ tr ++ os)
    (hos : ∀ c' handle, .registered c' handle ∈ os → .named c' handle ∈ tr) :
    Handles (tr ++ os) (s.setStage c call stage) where
  drawn := by
    intro c' call' handle hc' hstage
    rcases setStage_calls hc' with ⟨rfl, rfl⟩ | ⟨-, hc'⟩
    · exact hhandle handle hstage
    · exact List.mem_append_left _ (h.drawn c' call' handle hc' hstage)
  registered := by
    intro c' handle hmem
    rcases List.mem_append.mp hmem with hmem | hmem
    · exact List.mem_append_left _ (h.registered c' handle hmem)
    · exact List.mem_append_left _ (hos c' handle hmem)
  guarded := by
    intro handle e he
    by_cases htoken : e.token = c
    · subst htoken
      exact ⟨_, Function.update_self .., hguards handle e he rfl⟩
    · obtain ⟨call', hcall', hguard⟩ := h.guarded handle e he
      exact ⟨call', (Function.update_of_ne htoken _ _).trans hcall', hguard⟩

/-- An entry that goes leaves the handles as they are. -/
theorem Handles.remove (h : Handles tr s) {pending : Text → Option PendingApproval}
    (hsub : ∀ handle e, pending handle = some e → s.pending handle = some e)
    (hos : ∀ c handle, .registered c handle ∉ os) :
    Handles (tr ++ os) { s with pending := pending } where
  drawn := fun c call handle hcall hstage =>
    List.mem_append_left _ (h.drawn c call handle hcall hstage)
  registered := by
    intro c handle hmem
    rcases List.mem_append.mp hmem with hmem | hmem
    · exact List.mem_append_left _ (h.registered c handle hmem)
    · exact absurd hmem (hos c handle)
  guarded := fun handle e he => h.guarded handle e (hsub handle e he)

/-- Every step keeps the handles apart. -/
theorem Handles.step (h : Handles tr s) {a : Action} {s' : RemoteApprover}
    (hunborn : ∀ c, s.nextToken ≤ c → s.calls c = none) (hstep : Step s a s' os) :
    Handles (tr ++ os) s' := by
  cases hstep with
  | request turn providerCallId tool arguments =>
      rw [List.append_nil]
      refine ⟨?_, h.registered, ?_⟩
      · intro c call handle hc hstage
        rcases update_eq_some hc with ⟨rfl, rfl⟩ | ⟨-, hc⟩
        · cases hstage
        · exact h.drawn c call handle hc hstage
      · intro handle e he
        obtain ⟨call, hcall, hguard⟩ := h.guarded handle e he
        exact ⟨call, (update_unborn hunborn hcall).trans hcall, hguard⟩
  | @move c call a stage _ hcall hmoves =>
      obtain ⟨hguards, hhandle, hos⟩ := hmoves.handles
      refine h.setStage hcall ?_ ?_ (fun c' handle hmem => absurd hmem (hos c' handle))
      · rintro handle e he rfl
        obtain ⟨call', hcall', hguard⟩ := h.guarded handle e he
        obtain rfl := Option.some.inj (hcall.symm.trans hcall')
        exact hguards handle hguard
      · intro handle hstage
        rcases hhandle handle hstage with hold | hdrawn
        · exact List.mem_append_left _ (h.drawn c call handle hcall hold)
        · exact List.mem_append_right _ hdrawn
  | @register c call handle hcall hstage hvacant =>
      have hdrawn : .named c handle ∈ tr := h.drawn c call handle hcall (by rw [hstage]; rfl)
      have hmoved : Handles (tr ++ [.registered c handle])
          (s.setStage c call (.registered handle)) := by
        refine h.setStage hcall ?_ ?_ (fun c' handle' hmem => ?_)
        · rintro handle' e he rfl
          obtain ⟨call', hcall', hguard⟩ := h.guarded handle' e he
          obtain rfl := Option.some.inj (hcall.symm.trans hcall')
          rw [hstage] at hguard
          cases hguard
        · intro handle' hhandle
          obtain rfl := Option.some.inj hhandle
          exact List.mem_append_left _ hdrawn
        · obtain ⟨rfl, rfl⟩ : c' = c ∧ handle' = handle := by simpa using hmem
          exact hdrawn
      refine ⟨hmoved.drawn, hmoved.registered, ?_⟩
      intro handle' e he
      rcases update_eq_some (f := s.pending) he with ⟨rfl, rfl⟩ | ⟨-, he⟩
      · exact ⟨_, Function.update_self .., rfl⟩
      · exact hmoved.guarded handle' e he
  | @dropGuard c call handle outcome hcall hstage =>
      have hremoved : Handles (tr ++ []) (s.removeOwn c handle) := by
        rw [removeOwn]
        split
        · split
          · exact h.remove (fun _ _ he => (update_none_eq_some he).2) (by simp)
          · rwa [List.append_nil]
        · rwa [List.append_nil]
      rw [List.append_nil] at hremoved
      refine hremoved.setStage (by rwa [removeOwn_calls]) ?_ (fun _ h => by cases h) ?_
      · rintro handle' e he rfl
        obtain ⟨call', hcall', hguard⟩ := hremoved.guarded handle' e he
        rw [removeOwn_calls] at hcall'
        obtain rfl := Option.some.inj (hcall.symm.trans hcall')
        rw [hstage] at hguard
        obtain rfl := Option.some.inj hguard
        exact absurd he (removeOwn_pending_ne s e.token handle e rfl)
      · intro c' handle' hmem
        cases outcome <;> simp at hmem
  | unknown hnone => exact h.remove (fun _ _ he => he) (by simp)
  | late hpending hdead => exact h.remove (fun _ _ he => (update_none_eq_some he).2) (by simp)
  | @resolve callId decision approval call hpending hcall halive =>
      have hremoved : Handles (tr ++ [.resolved callId decision approval.tool])
          { s with pending := Function.update s.pending callId none } :=
        h.remove (fun _ _ he => (update_none_eq_some he).2) (by simp)
      refine ⟨?_, hremoved.registered, ?_⟩
      · intro c call' handle hc hstage
        rcases update_eq_some hc with ⟨rfl, rfl⟩ | ⟨-, hc⟩
        · exact hremoved.drawn _ call handle hcall hstage
        · exact hremoved.drawn c call' handle hc hstage
      · intro handle e he
        obtain ⟨call', hcall', hguard⟩ := hremoved.guarded handle e he
        by_cases htoken : e.token = approval.token
        · rw [htoken] at hcall' ⊢
          obtain rfl := Option.some.inj (hcall.symm.trans hcall')
          exact ⟨_, Function.update_self .., hguard⟩
        · exact ⟨call', (Function.update_of_ne htoken _ _).trans hcall', hguard⟩
  | cancelPending => exact h.remove (fun _ _ he => by cases he) (by simp)

/-- In every run, whatever is drawn. -/
theorem run_handles {A : List Obs → RemoteApprover → Action → Prop}
    (h : (machine tools).Run A tr s) : Handles tr s := by
  refine h.invariant (Handles.start tools) ?_
  intro tr os s s' a hrun hinv _ hstep
  exact hinv.step (run_sound hrun).1.unborn (step_cases hstep)

end RemoteApprover

end PeakcodeDaemon
