import PeakcodeDaemon.ApprovalCalls

/-!
# What a session has granted

`allowed_tools` is what the decisions so far make it: the registered tools
for which an `allow_all` found its call. A call of such a tool returns at
its first check and never asks; a tool that is not registered is granted
to the one call that asked.

- **the set** (`Granting`, `run_granting`): what was granted is in the
  set, and what is in the set was granted; `Step.allowedTools` says what
  one step adds, and no step takes anything away.
- **the check** (`check_cases`, `Checked`): it decides whether a call ever
  gets a handle, at the state it is made in. Later grants do not reach a
  call that has asked.
- **unregistered tools** (`resolve_unregistered`): an `allow_all` is given
  to the one call as a plain permission, and the set stays as it is.
-/

namespace PeakcodeDaemon

namespace RemoteApprover

variable {tools : List Text} {tr os : List Obs} {s s' : RemoteApprover} {a : Action} {c : Nat}
  {call call' : ApproveCall}

theorem persists_iff {decision : IpcApprovalDecision} {tool : Text} :
    s.persists decision tool = true ↔ decision = .allowAll ∧ tool ∈ s.registeredTools := by
  simp [persists]

/-- Only a registered tool is granted for the session. -/
theorem registered_of_coreDecision {decision : IpcApprovalDecision} {tool : Text}
    (h : s.coreDecision decision tool = .allowAll) : tool ∈ s.registeredTools := by
  unfold coreDecision at h
  split at h
  · cases h
  · rename_i hpersists
    cases decision with
    | allow => cases h
    | deny => cases h
    | allowAll =>
        have : s.persists .allowAll tool = true := by simpa using hpersists
        exact (persists_iff.mp this).2

/-- A step adds the tool of an `allow_all` that found its call, if the tool
is registered, and nothing else. -/
theorem Step.allowedTools (h : Step s a s' os) :
    (s'.allowedTools = s.allowedTools ∧
      ∀ handle tool, .resolved handle .allowAll tool ∈ os → tool ∉ s.registeredTools) ∨
    ∃ handle tool, os = [.resolved handle .allowAll tool] ∧ tool ∈ s.registeredTools ∧
      s'.allowedTools = tool :: s.allowedTools := by
  cases h with
  | request turn providerCallId tool arguments => exact Or.inl ⟨rfl, fun _ _ h => by cases h⟩
  | move hcall hmoves =>
      refine Or.inl ⟨rfl, fun handle tool h => ?_⟩
      cases hmoves <;> simp at h
  | register hcall hstage hvacant => exact Or.inl ⟨rfl, fun _ _ h => by simp at h⟩
  | @dropGuard c call handle outcome hcall hstage =>
      refine Or.inl ⟨?_, fun _ _ h => by cases outcome <;> simp at h⟩
      show (s.removeOwn c handle).allowedTools = s.allowedTools
      rw [removeOwn_eq]
  | unknown hnone => exact Or.inl ⟨rfl, fun _ _ h => by simp at h⟩
  | late hpending hdead => exact Or.inl ⟨rfl, fun _ _ h => by simp at h⟩
  | @resolve callId decision approval call hpending hcall halive =>
      by_cases hpersists : s.persists decision approval.tool = true
      · obtain ⟨rfl, htool⟩ := persists_iff.mp hpersists
        exact Or.inr ⟨callId, approval.tool, rfl, htool, if_pos hpersists⟩
      · refine Or.inl ⟨if_neg hpersists, fun handle tool h htool => ?_⟩
        obtain ⟨rfl, rfl, rfl⟩ := Obs.resolved.inj (List.mem_singleton.mp h)
        exact hpersists (persists_iff.mpr ⟨rfl, htool⟩)
  | cancelPending => exact Or.inl ⟨rfl, fun _ _ h => by simp at h⟩

theorem Step.registeredTools (h : Step s a s' os) : s'.registeredTools = s.registeredTools := by
  cases h with
  | @dropGuard c call handle outcome hcall hstage =>
      show (s.removeOwn c handle).registeredTools = s.registeredTools
      rw [removeOwn_eq]
  | _ => rfl

/-- The set is what was granted, and calls take `allow_all` for registered
tools only. -/
structure Granting (tr : List Obs) (s : RemoteApprover) : Prop where
  listed : ∀ handle tool, .resolved handle .allowAll tool ∈ tr → tool ∈ s.registeredTools →
    tool ∈ s.allowedTools
  reply : ∀ c call, s.calls c = some call → call.reply = some .allowAll →
    call.tool ∈ s.registeredTools
  leaving : ∀ c call handle, s.calls c = some call → call.stage = .leaving handle (some .allowAll) →
    call.tool ∈ s.registeredTools
  returned : ∀ c tool, .returned c tool .allowAll ∈ tr → tool ∈ s.registeredTools

theorem Granting.start (tools : List Text) : Granting [] (new tools) where
  listed := fun _ _ h => by cases h
  reply := fun _ _ h => by cases h
  leaving := fun _ _ _ h => by cases h
  returned := fun _ _ h => by cases h

theorem Granting.listed_step (h : Granting tr s) (hstep : Step s a s' os) {handle tool : Text}
    (hmem : .resolved handle .allowAll tool ∈ tr ++ os) (htool : tool ∈ s'.registeredTools) :
    tool ∈ s'.allowedTools := by
  rw [hstep.registeredTools] at htool
  rcases List.mem_append.mp hmem with hold | hnew
  · have := h.listed handle tool hold htool
    rcases hstep.allowedTools with ⟨heq, -⟩ | ⟨_, _, -, -, heq⟩
    · rwa [heq]
    · rw [heq]
      exact List.mem_cons_of_mem _ this
  · rcases hstep.allowedTools with ⟨-, hnone⟩ | ⟨_, tool', hos, -, heq⟩
    · exact absurd htool (hnone handle tool hnew)
    · rw [hos] at hnew
      obtain ⟨rfl, -, rfl⟩ := Obs.resolved.inj (List.mem_singleton.mp hnew)
      rw [heq]
      exact List.mem_cons_self ..

theorem Granting.reply_step (h : Granting tr s) (hsound : Sound tools tr s) (hstep : Step s a s' os)
    {call' : ApproveCall} (hcall' : s'.calls c = some call')
    (hreply : call'.reply = some .allowAll) :
    call'.tool ∈ s'.registeredTools := by
  rw [hstep.registeredTools]
  have hset : ∀ {s₁ : RemoteApprover} {c₁ : Nat} {call : ApproveCall} {stage : Stage},
      s₁.calls = s.calls → s.calls c₁ = some call →
      (s₁.setStage c₁ call stage).calls c = some call' →
      call'.tool ∈ s.registeredTools := by
    intro s₁ c₁ call stage heq hcall hset
    rcases setStage_calls hset with ⟨rfl, rfl⟩ | ⟨-, hold⟩
    · exact h.reply _ call hcall hreply
    · exact h.reply c call' (by rwa [← heq]) hreply
  cases hstep with
  | request turn providerCallId tool arguments =>
      rcases update_eq_some hcall' with ⟨rfl, rfl⟩ | ⟨-, hold⟩
      · cases hreply
      · exact h.reply c call' hold hreply
  | move hcall hmoves => exact hset rfl hcall hcall'
  | register hcall hstage hvacant => exact hset rfl hcall hcall'
  | dropGuard hcall hstage => exact hset (removeOwn_calls ..) hcall hcall'
  | @resolve callId decision approval call hpending hcall halive =>
      rcases update_eq_some hcall' with ⟨rfl, rfl⟩ | ⟨-, hold⟩
      · obtain ⟨call₁, hcall₁, htool, -⟩ := hsound.entry callId approval hpending
        obtain rfl := Option.some.inj (hcall.symm.trans hcall₁)
        show call.tool ∈ s.registeredTools
        rw [htool]
        exact registered_of_coreDecision (Option.some.inj hreply)
      · exact h.reply c call' hold hreply
  | unknown hnone => exact h.reply c call' hcall' hreply
  | late hpending hdead => exact h.reply c call' hcall' hreply
  | cancelPending => exact h.reply c call' hcall' hreply

theorem Granting.leaving_step (h : Granting tr s) (hstep : Step s a s' os) {call' : ApproveCall}
    {handle : Text} (hcall' : s'.calls c = some call')
    (hstage' : call'.stage = .leaving handle (some .allowAll)) :
    call'.tool ∈ s'.registeredTools := by
  rw [hstep.registeredTools]
  cases hstep with
  | request turn providerCallId tool arguments =>
      rcases update_eq_some hcall' with ⟨rfl, rfl⟩ | ⟨-, hold⟩
      · cases hstage'
      · exact h.leaving c call' handle hold hstage'
  | @move c₁ call a stage _ hcall hmoves =>
      rcases setStage_calls hcall' with ⟨rfl, rfl⟩ | ⟨-, hold⟩
      · obtain rfl : stage = .leaving handle (some .allowAll) := hstage'
        cases hmoves with
        | received hstage hreply => exact h.reply _ call hcall hreply
      · exact h.leaving c call' handle hold hstage'
  | register hcall hstage hvacant =>
      rcases setStage_calls hcall' with ⟨rfl, rfl⟩ | ⟨-, hold⟩
      · cases hstage'
      · exact h.leaving c call' handle hold hstage'
  | dropGuard hcall hstage =>
      rcases setStage_calls hcall' with ⟨rfl, rfl⟩ | ⟨-, hold⟩
      · cases hstage'
      · rw [removeOwn_calls] at hold
        exact h.leaving c call' handle hold hstage'
  | @resolve callId decision approval call hpending hcall halive =>
      rcases update_eq_some hcall' with ⟨rfl, rfl⟩ | ⟨-, hold⟩
      · exact h.leaving _ call handle hcall hstage'
      · exact h.leaving c call' handle hold hstage'
  | unknown hnone => exact h.leaving c call' handle hcall' hstage'
  | late hpending hdead => exact h.leaving c call' handle hcall' hstage'
  | cancelPending => exact h.leaving c call' handle hcall' hstage'

theorem Granting.returned_step (h : Granting tr s) (hsound : Sound tools tr s)
    (hstep : Step s a s' os) {tool : Text} (hmem : .returned c tool .allowAll ∈ os) :
    tool ∈ s'.registeredTools := by
  rw [hstep.registeredTools]
  cases hstep with
  | request turn providerCallId tool arguments => cases hmem
  | move hcall hmoves =>
      cases hmoves with
      | listed hstage htool =>
          obtain ⟨rfl, rfl, -⟩ := Obs.returned.inj (List.mem_singleton.mp hmem)
          rw [hsound.tools_eq]
          exact (hsound.allowed _ htool).1
      | _ => simp at hmem
  | @dropGuard c₁ call handle outcome hcall hstage =>
      cases outcome with
      | none => cases hmem
      | some decision =>
          obtain ⟨rfl, rfl, rfl⟩ := Obs.returned.inj (List.mem_singleton.mp hmem)
          exact h.leaving _ call handle hcall hstage
  | _ => simp at hmem

theorem Granting.step (h : Granting tr s) (hsound : Sound tools tr s) (hstep : Step s a s' os) :
    Granting (tr ++ os) s' where
  listed := fun _ _ hmem htool => h.listed_step hstep hmem htool
  reply := fun _ _ hcall' hreply => h.reply_step hsound hstep hcall' hreply
  leaving := fun _ _ _ hcall' hstage' => h.leaving_step hstep hcall' hstage'
  returned := by
    intro c tool hmem
    rcases List.mem_append.mp hmem with hold | hnew
    · rw [hstep.registeredTools]
      exact h.returned c tool hold
    · exact h.returned_step hsound hstep hnew

theorem run_granting {A : List Obs → RemoteApprover → Action → Prop}
    (h : (machine tools).Run A tr s) : Granting tr s := by
  refine h.invariant (Granting.start tools) ?_
  intro tr os s s' a hrun hinv _ hstep
  exact hinv.step (run_sound hrun).1 (step_cases hstep)

/-! ## Calls of granted tools -/

theorem Becomes.ended (h : Becomes s c call a call') (hended : call.stage.isEnded = true) :
    call' = call := by
  obtain ⟨outcome, hstage⟩ := Stage.ended_of_isEnded hended
  cases h with
  | same ha => rfl
  | moved hmoves => cases hended.symm.trans hmoves.busy
  | registered hstage' => cases hstage.symm.trans hstage'
  | dropped hstage' => cases hstage.symm.trans hstage'
  | replied hpending htoken halive => rw [hstage] at halive; cases halive

/-- A call that has ended takes no step. -/
theorem Step.ended (h : Step s a s' os) (hunborn : ∀ c, s.nextToken ≤ c → s.calls c = none)
    (hcall : s.calls c = some call) (hended : call.stage.isEnded = true) :
    s'.calls c = some call ∧ ∀ handle, .named c handle ∉ os := by
  obtain ⟨call', hcall', hbecomes⟩ := h.becomes (born hunborn hcall) hcall
  obtain rfl := hbecomes.ended hended
  refine ⟨hcall', fun handle hmem => ?_⟩
  cases h with
  | @move c₁ call₁ a stage _ hcall₁ hmoves =>
      cases hmoves with
      | named hstage =>
          obtain ⟨rfl, -⟩ := Obs.named.inj (List.mem_singleton.mp hmem)
          obtain rfl := Option.some.inj (hcall.symm.trans hcall₁)
          rw [hstage] at hended
          cases hended
      | _ => simp at hmem
  | @dropGuard c₁ call₁ handle₁ outcome hcall₁ hstage => cases outcome <;> simp at hmem
  | _ => simp at hmem

/-- Nothing is assumed of the environment. -/
abbrev Any (_ : List Obs) (_ : RemoteApprover) (_ : Action) : Prop := True

/-- A call that has ended stays as it is and is given no handle. -/
theorem run_ended {tr' : List Obs} (h : (machine tools).Run Any tr s)
    (hcall : s.calls c = some call)
    (hended : call.stage.isEnded = true) (h' : ((machine tools).restart s).Run Any tr' s') :
    s'.calls c = some call ∧ ∀ handle, .named c handle ∉ tr' := by
  refine h'.invariant (I := fun tr s => s.calls c = some call ∧ ∀ handle, .named c handle ∉ tr)
    ⟨hcall, fun _ => List.not_mem_nil⟩ ?_
  intro tr₁ os₁ s₁ s₂ a hrun ⟨hold, hnone⟩ _ hstep
  have hunborn := (run_sound (h.trans hrun)).1.unborn
  obtain ⟨hnew, hos⟩ := (step_cases hstep).ended hunborn hold hended
  refine ⟨hnew, fun handle hmem => ?_⟩
  rcases List.mem_append.mp hmem with hmem | hmem
  · exact hnone handle hmem
  · exact hos handle hmem

/-- The check of a call for a tool: what it does to the call. -/
theorem check_cases (hcall : s.calls c = some call) (h : s.step (.check c) = some (s', os)) :
    if call.tool ∈ s.allowedTools then
      s'.calls c = some { call with stage := .ended (some .allowAll) } ∧
        os = [.returned c call.tool .allowAll]
    else s'.calls c = some { call with stage := .unlisted } ∧ os = [] := by
  obtain ⟨call', hcall', h⟩ := Option.bind_eq_some_iff.mp h
  obtain rfl := Option.some.inj (hcall.symm.trans hcall')
  split at h
  · rw [Option.some.injEq, check] at h
    split at h
    · rename_i htool
      obtain ⟨rfl, rfl⟩ := Prod.mk.inj h
      rw [if_pos (by simpa using htool)]
      exact ⟨Function.update_self .., rfl⟩
    · rename_i htool
      obtain ⟨rfl, rfl⟩ := Prod.mk.inj h
      rw [if_neg (by simpa using htool)]
      exact ⟨Function.update_self .., rfl⟩
  · cases h

/-- What the first check of a call decides: a granted tool is allowed, and the
call has ended without ever getting a handle; any other call goes on. -/
def Checked (tools : List Text) (s : RemoteApprover) (c : Nat) (call : ApproveCall)
    (s' : RemoteApprover) (os : List Obs) : Prop :=
  if call.tool ∈ s.allowedTools then
    os = [.returned c call.tool .allowAll] ∧
      ∀ tr' s'', ((machine tools).restart s').Run Any tr' s'' →
        s''.calls c = some { call with stage := .ended (some .allowAll) } ∧
        ∀ handle, .named c handle ∉ tr'
  else os = [] ∧ s'.calls c = some { call with stage := .unlisted }

/-- The decision a call was given under a handle. -/
def Replied (s : RemoteApprover) (handle tool : Text) (decision : ApprovalDecision) : Prop :=
  ∃ c call, s.calls c = some call ∧ call.stage.guards = some handle ∧ call.tool = tool ∧
    call.reply = some decision

theorem resolve_unregistered (hguarded : ∀ handle e, s.pending handle = some e →
      ∃ call, s.calls e.token = some call ∧ call.stage.guards = some handle)
    (hentry : ∀ handle e, s.pending handle = some e →
      ∃ call, s.calls e.token = some call ∧ call.tool = e.tool ∧ Live tr e.token handle)
    {handle tool : Text} (hstep : Step s (.resolve handle .allowAll) s' os)
    (hmem : .resolved handle .allowAll tool ∈ os) (htool : tool ∉ s.registeredTools) :
    s'.allowedTools = s.allowedTools ∧ s'.Replied handle tool .allow := by
  cases hstep with
  | move hcall hmoves => cases hmoves
  | unknown hnone => simp at hmem
  | late hpending hdead => simp at hmem
  | @resolve _ _ approval call hpending hcall halive =>
      obtain ⟨-, -, rfl⟩ := Obs.resolved.inj (List.mem_singleton.mp hmem)
      have hpersists : ¬s.persists .allowAll approval.tool = true :=
        fun h => htool (persists_iff.mp h).2
      obtain ⟨call₁, hcall₁, hguards⟩ := hguarded handle approval hpending
      obtain rfl := Option.some.inj (hcall.symm.trans hcall₁)
      obtain ⟨call₂, hcall₂, hcalltool, -⟩ := hentry handle approval hpending
      obtain rfl := Option.some.inj (hcall.symm.trans hcall₂)
      refine ⟨if_neg hpersists, approval.token, _, Function.update_self .., hguards, hcalltool, ?_⟩
      simp [coreDecision, hpersists]

/-- In every run: the session's tools are the registered ones for which an
`allow_all` found its call, and are never taken back; a call asks exactly if
its tool is not among them at its check; and a tool that is not registered
is allowed for the one call only. -/
theorem grants_exact {A : List Obs → RemoteApprover → Action → Prop}
    (h : (machine tools).Run A tr s) :
    (∀ tool, tool ∈ s.allowedTools ↔
      tool ∈ s.registeredTools ∧ ∃ handle, .resolved handle .allowAll tool ∈ tr) ∧
    (∀ a s' os, s.step a = some (s', os) → s.allowedTools ⊆ s'.allowedTools) ∧
    (∀ c call s' os, s.calls c = some call → s.step (.check c) = some (s', os) →
      Checked tools s c call s' os) ∧
    (∀ c tool, .returned c tool .allowAll ∈ tr → tool ∈ s.registeredTools) ∧
    ∀ handle tool s' os, s.step (.resolve handle .allowAll) = some (s', os) →
      .resolved handle .allowAll tool ∈ os → tool ∉ s.registeredTools →
        s'.allowedTools = s.allowedTools ∧ s'.Replied handle tool .allow := by
  have hsound := (run_sound h).1
  have hgranting := run_granting h
  refine ⟨fun tool => ⟨fun htool => ?_, fun ⟨htool, handle, hmem⟩ => ?_⟩, ?_, ?_, ?_, ?_⟩
  · rw [hsound.tools_eq]
    exact hsound.allowed tool htool
  · exact hgranting.listed handle tool hmem htool
  · intro a s' os hstep tool htool
    rcases (step_cases hstep).allowedTools with ⟨heq, -⟩ | ⟨_, _, -, -, heq⟩
    · rwa [heq]
    · rw [heq]
      exact List.mem_cons_of_mem _ htool
  · intro c call s' os hcall hstep
    have hcases := check_cases hcall hstep
    unfold Checked
    split
    · rename_i htool
      rw [if_pos htool] at hcases
      have hstep' : (machine tools).step s (.check c) = some (s', os) := hstep
      have hrun : (machine tools).Run Any (tr ++ os) s' :=
        .step (h.mono fun _ _ _ _ => trivial) trivial hstep'
      exact ⟨hcases.2, fun tr' s'' h' => run_ended hrun hcases.1 rfl h'⟩
    · rename_i htool
      rw [if_neg htool] at hcases
      exact ⟨hcases.2, hcases.1⟩
  · exact hgranting.returned
  · intro handle tool s' os hstep hmem htool
    exact resolve_unregistered (run_handles h).guarded hsound.entry (step_cases hstep) hmem htool

/-- A registered tool is granted and a later call of it does not ask; another
tool is granted once. -/
theorem grants_exact_session : ∃ (tr : List Obs) (s : RemoteApprover),
    (machine ["bash".toList]).Run Any tr s ∧ .returned 1 "bash".toList .allowAll ∈ tr ∧
    "bash".toList ∈ s.allowedTools ∧ "other".toList ∉ s.allowedTools := by
  obtain ⟨s, hrun⟩ : ∃ s, (machine ["bash".toList]).Run Any
      [.named 0 "h".toList, .registered 0 "h".toList, .resolved "h".toList .allowAll "bash".toList,
        .returned 1 "bash".toList .allowAll, .named 2 "i".toList, .registered 2 "i".toList,
        .resolved "i".toList .allowAll "other".toList, .returned 2 "other".toList .allow] s :=
    ⟨_, Machine.Run.exec (fun _ _ _ => true) (fun _ _ _ _ => trivial)
      [.request 0 "p".toList "bash".toList .null, .check 0, .name 0 "h".toList, .register 0,
        .notify 0, .resolve "h".toList .allowAll,
        .request 0 "q".toList "bash".toList .null, .check 1,
        .request 0 "r".toList "other".toList .null, .check 2, .name 2 "i".toList, .register 2,
        .notify 2, .resolve "i".toList .allowAll, .receive 2, .dropGuard 2]
      .start rfl⟩
  have hgrants := (grants_exact hrun).1
  rw [(run_sound hrun).1.tools_eq] at hgrants
  refine ⟨_, s, hrun, by simp, (hgrants "bash".toList).mpr ⟨by simp, "h".toList, by simp⟩, ?_⟩
  intro hother
  simpa using ((hgrants "other".toList).mp hother).1

end RemoteApprover

end PeakcodeDaemon
