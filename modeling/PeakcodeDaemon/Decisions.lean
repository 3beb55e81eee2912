import PeakcodeDaemon.SessionGrants

/-!
# Where a decision goes

A handle is resolved once at most: the entry is removed when it is, and
the handle is not drawn again. The decision is then with the call that
drew the handle. Unless its notice failed or its future is dropped, the
call has nothing left to do but to receive the decision, to drop its guard
and to return.

- **an answered call** (`Answered`): how far it is, from the reply in its
  channel to the outcome, by the answer it was given. Its own steps take
  the answer on (`Answered.moves`), and no other step touches it
  (`Answered.becomes`).
- **a resolved handle** (`Decided`, `run_settled`): its entry is gone for
  good (`Step.vacant`), and its call is answered.
- **what is left of the run** (`Delivers`): once the notice is out, the
  call's own steps lead to a return with the answer (`Returns`), and no
  run leads to a return with anything else.

`Delivers` has both halves because either alone is too little: a call that
never returns would satisfy the second, and the first alone would not keep
another outcome from coming earlier.
-/

namespace PeakcodeDaemon

namespace RemoteApprover

variable {tools : List Text} {s s' : RemoteApprover} {a : Action} {os : List Obs} {c : Nat}
  {call call' : ApproveCall} {handle : Text} {log : List (Action ⊕ Obs)}

/-- The handle of a `resolve` that returned true. -/
def resolvedHandle? : Obs → Option Text
  | .resolved callId _ _ => some callId
  | _ => none

/-- The handles resolved, in order. -/
def resolvedHandles (tr : List Obs) : List Text := tr.filterMap resolvedHandle?

theorem mem_resolvedHandles {tr : List Obs} :
    handle ∈ resolvedHandles tr ↔ ∃ decision tool, .resolved handle decision tool ∈ tr := by
  rw [resolvedHandles, List.mem_filterMap]
  constructor
  · rintro ⟨o, hmem, ho⟩
    cases o with
    | resolved callId decision tool =>
        obtain rfl := Option.some.inj ho
        exact ⟨decision, tool, hmem⟩
    | _ => cases ho
  · rintro ⟨decision, tool, hmem⟩
    exact ⟨_, hmem, rfl⟩

/-- The observations of a log. -/
def observed (log : List (Action ⊕ Obs)) : List Obs := log.filterMap Sum.getRight?

theorem mem_observed {o : Obs} : o ∈ observed log ↔ .inr o ∈ log := by
  rw [observed, List.mem_filterMap]
  constructor
  · rintro ⟨x, hmem, hx⟩
    obtain rfl := Sum.getRight?_eq_some_iff.mp hx
    exact hmem
  · intro hmem
    exact ⟨_, hmem, rfl⟩

theorem observed_append {a : Action} {os : List Obs} :
    observed (log ++ .inl a :: os.map .inr) = observed log ++ os := by
  rw [observed, List.filterMap_append, Machine.filterMap_inr]
  rfl

/-! ## What becomes of an answered call -/

/-- The outcome of a call that was answered `x`: the answer, unless it was
aborted or its notice was not delivered. -/
def Given (log : List (Action ⊕ Obs)) (c : Nat) (x : ApprovalDecision)
    (outcome : Option ApprovalDecision) : Prop :=
  outcome = some x ∨ outcome = none ∧ .inl (.abort c) ∈ log ∨ .inl (.notify c) ∉ log

/-- How far a call is that was answered `x` under its handle. -/
inductive Answered (log : List (Action ⊕ Obs)) (c : Nat) (handle : Text) (x : ApprovalDecision)
    (call : ApproveCall) : Prop
  | registered (hstage : call.stage = .registered handle) (hreply : call.reply = some x)
      (hnotice : .inl (.notify c) ∉ log)
  | waiting (hstage : call.stage = .waiting handle) (hreply : call.reply = some x)
  | leaving {outcome : Option ApprovalDecision} (hstage : call.stage = .leaving handle outcome)
      (hgiven : Given log c x outcome)
  | ended {outcome : Option ApprovalDecision} (hstage : call.stage = .ended outcome)
      (hgiven : Given log c x outcome)

section

variable {x : ApprovalDecision}

theorem Given.append {outcome : Option ApprovalDecision} (h : Given log c x outcome)
    (ha : a ≠ .notify c) (os : List Obs) : Given (log ++ .inl a :: os.map .inr) c x outcome := by
  rcases h with h | ⟨hnone, habort⟩ | hnotice
  · exact Or.inl h
  · exact Or.inr (Or.inl ⟨hnone, List.mem_append_left _ habort⟩)
  · refine Or.inr (Or.inr ?_)
    simpa [hnotice] using fun h => ha h.symm

theorem Answered.of_registered (h : Answered log c handle x call) {handle' : Text}
    (hstage : call.stage = .registered handle') :
    handle' = handle ∧ call.reply = some x ∧ .inl (.notify c) ∉ log := by
  cases h with
  | registered hstage' hreply hnotice =>
      exact ⟨Stage.registered.inj (hstage.symm.trans hstage'), hreply, hnotice⟩
  | waiting hstage' hreply => cases hstage.symm.trans hstage'
  | leaving hstage' hgiven => cases hstage.symm.trans hstage'
  | ended hstage' hgiven => cases hstage.symm.trans hstage'

theorem Answered.of_waiting (h : Answered log c handle x call) {handle' : Text}
    (hstage : call.stage = .waiting handle') : handle' = handle ∧ call.reply = some x := by
  cases h with
  | waiting hstage' hreply => exact ⟨Stage.waiting.inj (hstage.symm.trans hstage'), hreply⟩
  | registered hstage' hreply hnotice => cases hstage.symm.trans hstage'
  | leaving hstage' hgiven => cases hstage.symm.trans hstage'
  | ended hstage' hgiven => cases hstage.symm.trans hstage'

theorem Answered.of_leaving (h : Answered log c handle x call) {handle' : Text}
    {outcome : Option ApprovalDecision} (hstage : call.stage = .leaving handle' outcome) :
    Given log c x outcome := by
  cases h with
  | leaving hstage' hgiven =>
      obtain ⟨-, rfl⟩ := Stage.leaving.inj (hstage.symm.trans hstage')
      exact hgiven
  | registered hstage' hreply hnotice => cases hstage.symm.trans hstage'
  | waiting hstage' hreply => cases hstage.symm.trans hstage'
  | ended hstage' hgiven => cases hstage.symm.trans hstage'

theorem Answered.of_ended (h : Answered log c handle x call) {outcome : Option ApprovalDecision}
    (hstage : call.stage = .ended outcome) : Given log c x outcome := by
  cases h with
  | ended hstage' hgiven =>
      obtain rfl := Stage.ended.inj (hstage.symm.trans hstage')
      exact hgiven
  | registered hstage' hreply hnotice => cases hstage.symm.trans hstage'
  | waiting hstage' hreply => cases hstage.symm.trans hstage'
  | leaving hstage' hgiven => cases hstage.symm.trans hstage'

/-- An answered call has registered. -/
theorem Answered.guards_or_ended (h : Answered log c handle x call) :
    call.stage.guards = some handle ∨ call.stage.isEnded = true := by
  cases h with
  | registered hstage hreply hnotice => rw [hstage]; exact Or.inl rfl
  | waiting hstage hreply => rw [hstage]; exact Or.inl rfl
  | leaving hstage hgiven => rw [hstage]; exact Or.inl rfl
  | ended hstage hgiven => rw [hstage]; exact Or.inr rfl

/-- A call that is about to register guards nothing and has not ended. -/
theorem not_early {stage : Stage} (h : stage.guards = some handle ∨ stage.isEnded = true) :
    stage ≠ .fetched ∧ stage ≠ .unlisted ∧ ∀ handle', stage ≠ .named handle' := by
  refine ⟨?_, ?_, ?_⟩
  · rintro rfl
    rcases h with h | h <;> cases h
  · rintro rfl
    rcases h with h | h <;> cases h
  · rintro _ rfl
    rcases h with h | h <;> cases h

/-- A call's own step takes the answer on, or records why it is not given. -/
theorem Answered.moves {stage : Stage} (h : Answered log c handle x call)
    (hmoves : Moves s c call a stage os) (os' : List Obs) :
    Answered (log ++ .inl a :: os'.map .inr) c handle x { call with stage := stage } := by
  obtain ⟨hfetched, hunlisted, hnamed⟩ := not_early h.guards_or_ended
  cases hmoves with
  | listed hstage htool => exact absurd hstage hfetched
  | unlisted hstage => exact absurd hstage hfetched
  | named hstage => exact absurd hstage hunlisted
  | occupied hstage hpending => exact absurd hstage (hnamed _)
  | notified hstage =>
      obtain ⟨rfl, hreply, -⟩ := h.of_registered hstage
      exact .waiting rfl hreply
  | undelivered hstage =>
      obtain ⟨rfl, hreply, hnotice⟩ := h.of_registered hstage
      exact .leaving rfl (Or.inr (Or.inr (by simpa using hnotice)))
  | received hstage hreply' =>
      obtain ⟨rfl, hreply⟩ := h.of_waiting hstage
      exact .leaving rfl (Or.inl (hreply'.symm.trans hreply))
  | closed hstage hreply' hsender =>
      obtain ⟨rfl, hreply⟩ := h.of_waiting hstage
      cases hreply'.symm.trans hreply
  | aborted hreceives hguards =>
      rcases h.guards_or_ended with hown | hended
      · obtain rfl := Option.some.inj (hguards.symm.trans hown)
        exact .leaving rfl (Or.inr (Or.inl ⟨rfl, by simp⟩))
      · obtain ⟨outcome, hstage⟩ := Stage.ended_of_isEnded hended
        rw [hstage] at hguards
        cases hguards
  | abortedEarly hguards hbusy =>
      rcases h.guards_or_ended with hown | hended
      · cases hguards.symm.trans hown
      · cases hbusy.symm.trans hended

/-- Whatever step is taken, an answered call whose entry is gone stays
answered. -/
theorem Answered.becomes (h : Answered log c handle x call) (hbecomes : Becomes s c call a call')
    (hcall : s.calls c = some call) (hremoved : s.pending handle = none)
    (hguarded : ∀ handle e, s.pending handle = some e →
      ∃ call, s.calls e.token = some call ∧ call.stage.guards = some handle) (os : List Obs) :
    Answered (log ++ .inl a :: os.map .inr) c handle x call' := by
  cases hbecomes with
  | same ha =>
      have hne : a ≠ .notify c := by
        rintro rfl
        exact ha rfl
      cases h with
      | registered hstage hreply hnotice =>
          refine .registered hstage hreply ?_
          simpa [hnotice] using fun h => hne h.symm
      | waiting hstage hreply => exact .waiting hstage hreply
      | leaving hstage hgiven => exact .leaving hstage (hgiven.append hne os)
      | ended hstage hgiven => exact .ended hstage (hgiven.append hne os)
  | moved hmoves => exact h.moves hmoves os
  | registered hstage => exact absurd hstage ((not_early h.guards_or_ended).2.2 _)
  | dropped hstage =>
      have hne : Action.dropGuard c ≠ .notify c := nofun
      exact .ended rfl ((h.of_leaving hstage).append hne os)
  | @replied callId decision approval hpending htoken halive =>
      -- the entry of the call is gone, so it cannot be replied to again
      obtain ⟨call₁, hcall₁, hguards⟩ := hguarded callId approval hpending
      rw [htoken] at hcall₁
      obtain rfl := Option.some.inj (hcall.symm.trans hcall₁)
      rcases h.guards_or_ended with hown | hended
      · obtain rfl := Option.some.inj (hguards.symm.trans hown)
        cases hremoved.symm.trans hpending
      · obtain ⟨outcome, hstage⟩ := Stage.ended_of_isEnded hended
        rw [hstage] at halive
        cases halive

end

/-! ## Runs -/

theorem observed_run {tr : List (Action ⊕ Obs)}
    (h : (machine tools).logged.Run (fun _ _ _ => True) tr s) :
    (machine tools).Run Any (observed tr) s :=
  h.of_logged fun _ _ _ _ => trivial

/-- A call whose notice was delivered is past that. -/
theorem run_noticed (h : (machine tools).logged.Run (fun _ _ _ => True) log s) :
    ∀ c, .inl (.notify c) ∈ log → ∃ call, s.calls c = some call ∧ call.stage.isPast = true := by
  refine h.invariant (I := fun log s => ∀ c, .inl (.notify c) ∈ log →
    ∃ call, s.calls c = some call ∧ call.stage.isPast = true) (fun _ h => by cases h) ?_
  intro log entries s s' a hrun hinv _ hlogged c hmem
  obtain ⟨os, hstep, rfl⟩ := Machine.logged_step hlogged
  have hstep : Step s a s' os := step_cases hstep
  rcases List.mem_append.mp hmem with hold | hnew
  · obtain ⟨call, hcall, hpast⟩ := hinv c hold
    exact hstep.isPast (run_sound (observed_run hrun)).1.unborn hcall hpast
  · obtain rfl : Action.notify c = a := by simpa using hnew
    cases hstep with
    | move hcall hmoves =>
        cases hmoves with
        | notified hstage => exact ⟨_, Function.update_self .., rfl⟩

/-- A call that returned has ended with what it returned. -/
theorem run_returned {A : List Obs → RemoteApprover → Action → Prop} {tr : List Obs}
    (h : (machine tools).Run A tr s) : ∀ c tool decision, .returned c tool decision ∈ tr →
      ∃ call, s.calls c = some call ∧ call.stage = .ended (some decision) := by
  refine h.invariant (I := fun tr s => ∀ c tool decision, .returned c tool decision ∈ tr →
    ∃ call, s.calls c = some call ∧ call.stage = .ended (some decision))
    (fun _ _ _ h => by cases h) ?_
  intro tr os s s' a hrun hinv _ hstep c tool decision hmem
  have hstep : Step s a s' os := step_cases hstep
  rcases List.mem_append.mp hmem with hold | hnew
  · obtain ⟨call, hcall, hstage⟩ := hinv c tool decision hold
    have hkept := hstep.ended (run_sound hrun).1.unborn hcall (by rw [hstage]; rfl)
    exact ⟨call, hkept.1, hstage⟩
  · cases hstep with
    | request turn providerCallId tool arguments => cases hnew
    | move hcall hmoves =>
        cases hmoves with
        | listed hstage htool =>
            obtain ⟨rfl, -, rfl⟩ := Obs.returned.inj (List.mem_singleton.mp hnew)
            exact ⟨_, Function.update_self .., rfl⟩
        | occupied hstage hpending =>
            obtain ⟨rfl, -, rfl⟩ := Obs.returned.inj (List.mem_singleton.mp hnew)
            exact ⟨_, Function.update_self .., rfl⟩
        | _ => simp at hnew
    | @dropGuard c call handle outcome hcall hstage =>
        cases outcome with
        | none => cases hnew
        | some decision =>
            obtain ⟨rfl, -, rfl⟩ := Obs.returned.inj (List.mem_singleton.mp hnew)
            exact ⟨_, Function.update_self .., rfl⟩
    | _ => simp at hnew

/-- A vacant place of a handle that no call is about to register stays so. -/
theorem Step.vacant (h : Step s a s' os) (hvacant : s.pending handle = none)
    (hnamed : ∀ c call, s.calls c = some call → call.stage ≠ .named handle) :
    s'.pending handle = none := by
  have hupdate : ∀ callId, Function.update s.pending callId none handle = none := by
    intro callId
    by_cases hid : handle = callId
    · subst hid
      exact Function.update_self ..
    · rwa [Function.update_of_ne hid]
  cases h with
  | request turn providerCallId tool arguments => exact hvacant
  | move hcall hmoves => exact hvacant
  | @register c call handle' hcall hstage hvacant' =>
      have hne : handle ≠ handle' := by
        rintro rfl
        exact hnamed c call hcall hstage
      exact (Function.update_of_ne hne _ _).trans hvacant
  | @dropGuard c call handle' outcome hcall hstage =>
      show (s.removeOwn c handle').pending handle = none
      unfold removeOwn
      split
      · split
        · exact hupdate handle'
        · exact hvacant
      · exact hvacant
  | unknown hnone => exact hvacant
  | late hpending hdead => exact hupdate _
  | resolve hpending hcall halive => exact hupdate _
  | cancelPending => rfl

/-- The entry of a resolved handle is gone, and its call was answered. -/
structure Decided (tools : List Text) (log : List (Action ⊕ Obs)) (s : RemoteApprover)
    (handle : Text) (decision : IpcApprovalDecision) (tool : Text) (c : Nat) (call : ApproveCall) :
    Prop where
  removed : s.pending handle = none
  named : .inr (.named c handle) ∈ log
  found : s.calls c = some call
  tool_eq : call.tool = tool
  answered : Answered log c handle ((new tools).coreDecision decision tool) call

theorem coreDecision_new (htools : s.registeredTools = tools) (decision : IpcApprovalDecision)
    (tool : Text) : s.coreDecision decision tool = (new tools).coreDecision decision tool := by
  subst htools
  rfl

theorem Becomes.tool_eq (h : Becomes s c call a call') : call'.tool = call.tool := by
  cases h <;> rfl

theorem Decided.step {decision : IpcApprovalDecision} {tool : Text}
    (h : Decided tools log s handle decision tool c call) (hsound : Sound tools (observed log) s)
    (hhandles : Handles (observed log) s) (hfresh : (names (observed log)).Nodup)
    (hstep : Step s a s' os) :
    ∃ call', Decided tools (log ++ .inl a :: os.map .inr) s' handle decision tool c call' := by
  obtain ⟨call', hcall', hbecomes⟩ := hstep.becomes (born hsound.unborn h.found) h.found
  refine ⟨call', ?_, List.mem_append_left _ h.named, hcall', hbecomes.tool_eq.trans h.tool_eq,
    h.answered.becomes hbecomes h.found h.removed hhandles.guarded os⟩
  refine hstep.vacant h.removed fun c' call₁ hcall₁ hstage => ?_
  have hdrawn := hhandles.drawn c' call₁ handle hcall₁ (by rw [hstage]; rfl)
  obtain rfl := named_inj hfresh hdrawn (mem_observed.mpr h.named)
  obtain rfl := Option.some.inj (hcall₁.symm.trans h.found)
  exact (not_early h.answered.guards_or_ended).2.2 _ hstage

/-- Resolving a handle settles it. -/
theorem Decided.start {decision : IpcApprovalDecision} {tool : Text}
    (hsound : Sound tools (observed log) s) (hhandles : Handles (observed log) s)
    (hnoticed : ∀ c, .inl (.notify c) ∈ log →
      ∃ call, s.calls c = some call ∧ call.stage.isPast = true)
    (hstep : Step s a s' os) (hmem : .resolved handle decision tool ∈ os) :
    ∃ c call, Decided tools (log ++ .inl a :: os.map .inr) s' handle decision tool c call := by
  cases hstep with
  | move hcall hmoves => cases hmoves <;> simp at hmem
  | @dropGuard c call handle outcome hcall hstage => cases outcome <;> simp at hmem
  | @resolve callId decision approval call hpending hcall halive =>
      obtain ⟨rfl, rfl, rfl⟩ := Obs.resolved.inj (List.mem_singleton.mp hmem)
      obtain ⟨call₁, hcall₁, hguards⟩ := hhandles.guarded _ _ hpending
      obtain rfl := Option.some.inj (hcall.symm.trans hcall₁)
      obtain ⟨call₂, hcall₂, htool, -⟩ := hsound.entry _ _ hpending
      obtain rfl := Option.some.inj (hcall.symm.trans hcall₂)
      have hdrawn := hhandles.drawn _ _ _ hcall (Stage.handle?_of_guards hguards)
      have hreply := congrArg some (coreDecision_new hsound.tools_eq decision approval.tool)
      refine ⟨approval.token, _, Function.update_self ..,
        List.mem_append_left _ (mem_observed.mp hdrawn), Function.update_self .., htool, ?_⟩
      cases hstage : call.stage with
      | registered handle =>
          rw [hstage] at hguards
          obtain rfl := Option.some.inj hguards
          refine .registered rfl hreply fun hnotice => ?_
          obtain ⟨call₃, hcall₃, hpast⟩ := hnoticed approval.token (by simpa using hnotice)
          obtain rfl := Option.some.inj (hcall.symm.trans hcall₃)
          rw [hstage] at hpast
          cases hpast
      | waiting handle =>
          rw [hstage] at hguards
          obtain rfl := Option.some.inj hguards
          exact .waiting rfl hreply
      | _ => rw [hstage] at halive; cases halive
  | _ => simp at hmem

/-- A handle is resolved while it has an entry. -/
theorem Step.resolvedHandles (h : Step s a s' os) : resolvedHandles os = [] ∨
    ∃ handle, resolvedHandles os = [handle] ∧ (s.pending handle).isSome = true := by
  cases h with
  | move hcall hmoves => cases hmoves <;> exact Or.inl rfl
  | @dropGuard c call handle outcome hcall hstage => cases outcome <;> exact Or.inl rfl
  | resolve hpending hcall halive => exact Or.inr ⟨_, rfl, by rw [hpending]; rfl⟩
  | _ => exact Or.inl rfl

/-- Every handle resolved is decided, and was resolved once. -/
theorem run_settled (h : (machine tools).logged.Run (fun _ _ _ => True) log s)
    (hfresh : (names (observed log)).Nodup) :
    (∀ handle decision tool, .inr (.resolved handle decision tool) ∈ log →
      ∃ c call, Decided tools log s handle decision tool c call) ∧
    (resolvedHandles (observed log)).Nodup := by
  revert hfresh
  refine h.invariant (I := fun log s => (names (observed log)).Nodup →
    (∀ handle decision tool, .inr (.resolved handle decision tool) ∈ log →
      ∃ c call, Decided tools log s handle decision tool c call) ∧
    (resolvedHandles (observed log)).Nodup)
    (fun _ => ⟨fun _ _ _ h => (List.not_mem_nil h).elim, List.nodup_nil⟩) ?_
  intro log entries s s' a hrun hinv _ hlogged hfresh
  obtain ⟨os, hstep, rfl⟩ := Machine.logged_step hlogged
  have hstep : Step s a s' os := step_cases hstep
  have hsound := (run_sound (observed_run hrun)).1
  have hhandles := run_handles (observed_run hrun)
  rw [observed_append] at hfresh ⊢
  have hold : (names (observed log)).Nodup := by
    rw [names, List.filterMap_append] at hfresh
    exact (List.nodup_append.mp hfresh).1
  obtain ⟨hdecided, honce⟩ := hinv hold
  refine ⟨fun handle decision tool hmem => ?_, ?_⟩
  · rcases List.mem_append.mp hmem with hmem | hmem
    · obtain ⟨c, call, h⟩ := hdecided handle decision tool hmem
      obtain ⟨call', h'⟩ := h.step hsound hhandles hold hstep
      exact ⟨c, call', h'⟩
    · exact Decided.start hsound hhandles (run_noticed hrun) hstep (by simpa using hmem)
  · rw [resolvedHandles, List.filterMap_append]
    rcases hstep.resolvedHandles with hnone | ⟨handle, hone, hpending⟩
    · rw [resolvedHandles] at hnone
      rwa [hnone, List.append_nil]
    · rw [resolvedHandles] at hone
      rw [hone]
      refine List.nodup_append.mpr ⟨honce, by simp, ?_⟩
      rintro handle' hmem _ hnew rfl
      obtain rfl := List.mem_singleton.mp hnew
      obtain ⟨decision, tool, hresolved⟩ := mem_resolvedHandles.mp hmem
      obtain ⟨c, call, h⟩ := hdecided _ decision tool (mem_observed.mp hresolved)
      rw [h.removed] at hpending
      cases hpending

/-! ## The decision comes back -/

/-- By its own steps, the call returns `x`. -/
def Returns (tools : List Text) (s : RemoteApprover) (c : Nat) (x : ApprovalDecision) : Prop :=
  ∃ as tr s' call, (∀ a ∈ as, a = .receive c ∨ a = .dropGuard c) ∧
    (machine tools).Takes s as tr s' ∧ s'.calls c = some call ∧ call.stage = .ended (some x)

/-- Once the notice of the call is out, the call returns `x` and nothing else,
unless it is aborted. -/
structure Delivers (tools : List Text) (log : List (Action ⊕ Obs)) (s : RemoteApprover) (c : Nat)
    (x : ApprovalDecision) : Prop where
  returned : ∀ tool y, .inl (.notify c) ∈ log → .inr (.returned c tool y) ∈ log → y = x
  returns : .inl (.notify c) ∈ log → .inl (.abort c) ∉ log → Returns tools s c x

variable (tools) in
theorem returns_of_leaving {x : ApprovalDecision} (hcall : s.calls c = some call)
    (hstage : call.stage = .leaving handle (some x)) : ∃ tr s' call,
      (machine tools).Takes s [.dropGuard c] tr s' ∧ s'.calls c = some call ∧
        call.stage = .ended (some x) := by
  have hstep : (machine tools).step s (.dropGuard c) =
      some (s.dropGuard c call handle (some x)) := by
    show s.step (.dropGuard c) = _
    simp [step, hcall, hstage]
  exact ⟨_, _, _, .cons hstep (.nil _), Function.update_self .., rfl⟩

theorem Answered.returns {x : ApprovalDecision} (h : Answered log c handle x call)
    (hcall : s.calls c = some call) (hnotice : .inl (.notify c) ∈ log)
    (habort : .inl (.abort c) ∉ log) : Returns tools s c x := by
  have hgiven : ∀ {outcome}, Given log c x outcome → outcome = some x := by
    rintro outcome (h | ⟨-, h⟩ | h)
    · exact h
    · exact absurd h habort
    · exact absurd hnotice h
  cases h with
  | registered hstage hreply hunnoticed => exact absurd hnotice hunnoticed
  | waiting hstage hreply =>
      have hstep : (machine tools).step s (.receive c) =
          some (s.setStage c call (.leaving handle (some x)), []) := by
        show s.step (.receive c) = _
        simp [step, hcall, hstage, hreply]
      obtain ⟨tr, s', call', htakes, hcall', hstage'⟩ := returns_of_leaving tools
        (s := s.setStage c call (.leaving handle (some x))) (Function.update_self ..) rfl
      exact ⟨_, _, s', call', by simp, .cons hstep htakes, hcall', hstage'⟩
  | leaving hstage hoption =>
      obtain rfl := hgiven hoption
      obtain ⟨tr, s', call', htakes, hcall', hstage'⟩ := returns_of_leaving tools hcall hstage
      exact ⟨_, _, s', call', by simp, htakes, hcall', hstage'⟩
  | ended hstage hoption =>
      obtain rfl := hgiven hoption
      exact ⟨[], [], s, call, by simp, .nil s, hcall, hstage⟩

/-- What settles a handle is delivered to its call. -/
theorem Decided.delivers (h : (machine tools).logged.Run (fun _ _ _ => True) log s)
    {decision : IpcApprovalDecision} {tool : Text}
    (hdecided : Decided tools log s handle decision tool c call) :
    Delivers tools log s c ((new tools).coreDecision decision tool) where
  returned := by
    intro tool' y hnotice hreturned
    obtain ⟨call', hcall', hstage⟩ :=
      run_returned (observed_run h) c tool' y (mem_observed.mpr hreturned)
    obtain rfl := Option.some.inj (hdecided.found.symm.trans hcall')
    rcases hdecided.answered.of_ended hstage with heq | ⟨hnone, -⟩ | hunnoticed
    · exact Option.some.inj heq
    · cases hnone
    · exact absurd hnotice hunnoticed
  returns := fun hnotice habort => hdecided.answered.returns hdecided.found hnotice habort

end RemoteApprover

end PeakcodeDaemon
