import PeakcodeDaemon.Decisions

/-!
# What a decision leaves alone

A decision goes to the call of its handle. The other calls come out as if
the handle had not been resolved and its call had stopped there, whatever
is done afterwards; but a call of a tool that the decision grants for the
session no longer asks. A `resolve` that returns false leaves every call,
and the tools granted, as they would have been without it.

Both halves are simulations of the run by one without the decision.

- **isolation** (`Beside`, `Aside`, `Aside.isolated`): on the side, the
  call of the handle stands still (`Action.concerns` leaves its steps
  out); its own steps and the handle do not reach the others
  (`Beside.hidden`), and the others keep pace (`Beside.visible`). `Alike`
  has the one difference there is: a call that did not ask because its
  tool is granted, where the other goes on to ask.
- **no effect** (`Level`, `Level.replays`): the two states differ in the
  entry of one handle, whose call does not receive any more. They take the
  same steps to states that differ in no more than that (`Level.step`).
- **whose handle** (`Bound`, `Bound.step`): that the handle stays its
  call's is where fresh handles come in.

`decisions_delivered` puts these beside `Delivers`, and
`allow_all_reaches_other_call` is the one way in which a decision does
reach another call.
-/

namespace PeakcodeDaemon

namespace RemoteApprover

variable {tools : List Text} {s s' t t' : RemoteApprover} {a : Action} {os : List Obs} {c c₁ : Nat}
  {call call' : ApproveCall} {handle : Text}

/-- The action is a step of the call, or resolves its handle. -/
def Action.concerns (c : Nat) (handle : Text) : Action → Bool
  | .resolve callId _ => callId == handle
  | a => a.call? == some c

/-! ## A call and its handle -/

/-- The call has registered under the handle, which is no other call's. -/
structure Bound (s : RemoteApprover) (c : Nat) (handle : Text) : Prop where
  born : c < s.nextToken
  own : ∀ call, s.calls c = some call →
    call.stage.guards = some handle ∨ call.stage.isEnded = true
  others : ∀ c' call, s.calls c' = some call → c' ≠ c → call.stage.handle? ≠ some handle
  entries : ∀ handle' e, s.pending handle' = some e → (e.token = c ↔ handle' = handle)

/-- Entries may go. -/
theorem Bound.remove (h : s.Bound c handle) {pending : Text → Option PendingApproval}
    (hsub : ∀ handle e, pending handle = some e → s.pending handle = some e) :
    Bound { s with pending := pending } c handle :=
  ⟨h.born, h.own, h.others, fun handle' e he => h.entries handle' e (hsub handle' e he)⟩

/-- The handle stays bound to its call when calls move on. -/
theorem Bound.setStage (h : s.Bound c handle) {stage : Stage} (hcall : s.calls c₁ = some call)
    (hown : c₁ = c → stage.guards = some handle ∨ stage.isEnded = true)
    (hother : c₁ ≠ c → stage.handle? ≠ some handle) :
    (s.setStage c₁ call stage).Bound c handle where
  born := h.born
  own := by
    intro call' hcall'
    rcases setStage_calls hcall' with ⟨rfl, rfl⟩ | ⟨-, hold⟩
    · exact hown rfl
    · exact h.own call' hold
  others := by
    intro c' call' hcall' hne
    rcases setStage_calls hcall' with ⟨rfl, rfl⟩ | ⟨-, hold⟩
    · exact hother hne
    · exact h.others c' call' hold hne
  entries := h.entries

/-- A call that is about to register is another one, under another handle. -/
theorem Bound.named_ne (h : s.Bound c handle) {handle₁ : Text} (hcall : s.calls c₁ = some call)
    (hstage : call.stage = .named handle₁) : c₁ ≠ c ∧ handle₁ ≠ handle := by
  have hne : c₁ ≠ c := by
    rintro rfl
    exact (not_early (h.own call hcall)).2.2 _ hstage
  refine ⟨hne, ?_⟩
  rintro rfl
  exact h.others c₁ call hcall hne (by rw [hstage]; rfl)

/-- As long as the handle is not drawn again, no step changes that. -/
theorem Bound.step (h : s.Bound c handle) (ha : ∀ c', a ≠ .name c' handle)
    (hstep : Step s a s' os) : s'.Bound c handle := by
  cases hstep with
  | request turn providerCallId tool arguments =>
      refine ⟨Nat.lt_succ_of_lt h.born, fun call' hcall' => ?_, ?_, h.entries⟩
      · rcases update_eq_some hcall' with ⟨rfl, -⟩ | ⟨-, hold⟩
        · exact absurd h.born (Nat.lt_irrefl _)
        · exact h.own call' hold
      · intro c' call' hcall' hne
        rcases update_eq_some hcall' with ⟨rfl, rfl⟩ | ⟨-, hold⟩
        · nofun
        · exact h.others c' call' hold hne
  | move hcall hmoves =>
      refine h.setStage hcall ?_ ?_
      · rintro rfl
        rcases h.own _ hcall with hguards | hended
        · exact Or.inl (hmoves.handles.1 handle hguards)
        · cases hended.symm.trans hmoves.busy
      · intro hne hhandle
        rcases hmoves.handle_origin hhandle with hold | hname
        · exact h.others _ _ hcall hne hold
        · exact ha _ hname
  | @register c₁ call handle₁ hcall hstage hvacant =>
      obtain ⟨hne, hhandle⟩ := h.named_ne hcall hstage
      have hmoved : (s.setStage c₁ call (.registered handle₁)).Bound c handle :=
        h.setStage hcall (fun heq => absurd heq hne) fun _ heq => hhandle (Option.some.inj heq)
      refine ⟨hmoved.born, hmoved.own, hmoved.others, fun handle' e he => ?_⟩
      rcases update_eq_some (f := s.pending) he with ⟨rfl, rfl⟩ | ⟨-, hold⟩
      · exact ⟨fun heq => absurd heq hne, fun heq => absurd heq hhandle⟩
      · exact h.entries handle' e hold
  | @dropGuard c₁ call handle₁ outcome hcall hstage =>
      have hremoved : (s.removeOwn c₁ handle₁).Bound c handle := by
        rw [removeOwn_eq]
        exact h.remove fun _ _ he => (removeOwn_pending.mp he).1
      exact hremoved.setStage (by rwa [removeOwn_calls]) (fun _ => Or.inr rfl) (fun _ => nofun)
  | unknown hnone => exact h
  | late hpending hdead => exact h.remove fun _ _ he => (update_none_eq_some he).2
  | @resolve callId decision approval call hpending hcall halive =>
      have hremoved : Bound { s with pending := Function.update s.pending callId none } c handle :=
        h.remove fun _ _ he => (update_none_eq_some he).2
      refine ⟨h.born, fun call' hcall' => ?_, ?_, hremoved.entries⟩
      · rcases update_eq_some hcall' with ⟨rfl, rfl⟩ | ⟨-, hold⟩
        · exact h.own call hcall
        · exact h.own call' hold
      · intro c' call' hcall' hne
        rcases update_eq_some hcall' with ⟨rfl, rfl⟩ | ⟨-, hold⟩
        · exact h.others _ call hcall hne
        · exact h.others c' call' hold hne
  | cancelPending => exact h.remove fun _ _ he => by cases he

/-- An entry of the handle that is gone does not come back. -/
theorem Bound.removed (h : s.Bound c handle) (hremoved : s.pending handle = none)
    (hstep : Step s a s' os) : s'.pending handle = none :=
  hstep.vacant hremoved fun _ _ hcall hstage => (h.named_ne hcall hstage).2 rfl

/-- In a run, a call that has registered is bound to its handle. -/
theorem Handles.bound {tr : List Obs} (h : Handles tr s) (hfresh : (names tr).Nodup)
    (hunborn : ∀ c, s.nextToken ≤ c → s.calls c = none) (hnamed : .named c handle ∈ tr)
    (hcall : s.calls c = some call)
    (hown : call.stage.guards = some handle ∨ call.stage.isEnded = true) : s.Bound c handle where
  born := RemoteApprover.born hunborn hcall
  own := by
    intro call' hcall'
    obtain rfl := Option.some.inj (hcall.symm.trans hcall')
    exact hown
  others := by
    intro c' call' hcall' hne hhandle
    exact hne (named_inj hfresh (h.drawn c' call' handle hcall' hhandle) hnamed)
  entries := by
    intro handle' e he
    obtain ⟨call', hcall', hguards⟩ := h.guarded handle' e he
    have hdrawn := h.drawn e.token call' handle' hcall' (Stage.handle?_of_guards hguards)
    constructor
    · rintro rfl
      obtain rfl := Option.some.inj (hcall.symm.trans hcall')
      rcases hown with hown | hended
      · exact Option.some.inj (hguards.symm.trans hown)
      · obtain ⟨outcome, hstage⟩ := Stage.ended_of_isEnded hended
        rw [hstage] at hguards
        cases hguards
    · rintro rfl
      exact named_inj hfresh hdrawn hnamed

/-! ## The run without them -/

/-- The same call, or one that did not ask where the other goes on to ask. -/
def Alike (granted : Text → Prop) (x y : Option ApproveCall) : Prop :=
  y = x ∨ ∃ call : ApproveCall, granted call.tool ∧
    x = some { call with stage := .ended (some .allowAll) } ∧
    y = some { call with stage := .unlisted }

/-- A state after the handle was resolved, and one in which neither the
handle nor its call was touched. -/
structure Beside (granted : Text → Prop) (c : Nat) (handle : Text) (s t : RemoteApprover) :
    Prop where
  nextToken : t.nextToken = s.nextToken
  registeredTools : t.registeredTools = s.registeredTools
  allowed : ∀ tool, tool ∈ s.allowedTools ↔ tool ∈ t.allowedTools ∨ granted tool
  pending : ∀ handle', handle' ≠ handle → t.pending handle' = s.pending handle'
  calls : ∀ c', c' ≠ c → Alike granted (s.calls c') (t.calls c')

section

variable {granted : Text → Prop}

/-- A call that goes on is the same on both sides. -/
theorem Alike.busy {x y : Option ApproveCall} (h : Alike granted x y) (hcall : x = some call)
    (hbusy : call.stage.isEnded = false) : y = some call := by
  rcases h with rfl | ⟨call', -, rfl, -⟩
  · exact hcall
  · obtain rfl := Option.some.inj hcall
    cases hbusy

theorem concerns_of_call? (h : a.call? = some c₁) : a.concerns c handle = (c₁ == c) := by
  cases a with
  | resolve callId decision => cases h
  | _ => simpa [Action.concerns] using congrArg (fun x => x == some c) h

/-- A step of one of the other calls. -/
theorem Beside.setStage (h : Beside granted c handle s t) {stage stage' : Stage}
    (hstage : stage' = stage ∨
      granted call.tool ∧ stage = .ended (some .allowAll) ∧ stage' = .unlisted) :
    Beside granted c handle (s.setStage c₁ call stage) (t.setStage c₁ call stage') := by
  refine ⟨h.nextToken, h.registeredTools, h.allowed, h.pending, fun c' hc' => ?_⟩
  by_cases hc : c' = c₁
  · subst hc
    show Alike granted (Function.update s.calls c' _ c') (Function.update t.calls c' _ c')
    rw [Function.update_self, Function.update_self]
    rcases hstage with rfl | ⟨hgranted, rfl, rfl⟩
    · exact Or.inl rfl
    · exact Or.inr ⟨call, hgranted, rfl, rfl⟩
  · show Alike granted (Function.update s.calls c₁ _ c') (Function.update t.calls c₁ _ c')
    rw [Function.update_of_ne hc, Function.update_of_ne hc]
    exact h.calls c' hc'

/-- Entries of the other handles may come and go. -/
theorem Beside.setPending (h : Beside granted c handle s t) {p q : Text → Option PendingApproval}
    (hpending : ∀ handle', handle' ≠ handle → q handle' = p handle') :
    Beside granted c handle { s with pending := p } { t with pending := q } :=
  ⟨h.nextToken, h.registeredTools, h.allowed, hpending, h.calls⟩

theorem Beside.update (h : Beside granted c handle s t) (handle₁ : Text)
    (e : Option PendingApproval) : ∀ handle', handle' ≠ handle →
      Function.update t.pending handle₁ e handle' =
        Function.update s.pending handle₁ e handle' := by
  intro handle' hne
  by_cases heq : handle' = handle₁
  · subst heq
    rw [Function.update_self, Function.update_self]
  · rw [Function.update_of_ne heq, Function.update_of_ne heq, h.pending handle' hne]

/-- The call's own steps, and the handle, do not reach the others. -/
theorem Beside.hidden (h : Beside granted c handle s t) (hbound : s.Bound c handle)
    (hremoved : s.pending handle = none) (hconcerns : a.concerns c handle = true)
    (hstep : Step s a s' os) :
    Beside granted c handle s' t := by
  have hown : ∀ {c₁}, a.call? = some c₁ → c₁ = c := by
    intro c₁ hc
    rw [concerns_of_call? hc] at hconcerns
    exact eq_of_beq hconcerns
  have hset : ∀ {call₁ : ApproveCall} {stage : Stage},
      ∀ c' ≠ c, Alike granted ((s.setStage c call₁ stage).calls c') (t.calls c') := by
    intro call₁ stage c' hne
    have hsame : (s.setStage c call₁ stage).calls c' = s.calls c' := Function.update_of_ne hne _ _
    rw [hsame]
    exact h.calls c' hne
  cases hstep with
  | request turn providerCallId tool arguments => cases hconcerns
  | move hcall hmoves =>
      obtain rfl := hown hmoves.call?
      exact ⟨h.nextToken, h.registeredTools, h.allowed, h.pending, hset⟩
  | register hcall hstage hvacant =>
      obtain rfl := hown rfl
      exact absurd hstage ((not_early (hbound.own _ hcall)).2.2 _)
  | @dropGuard c₁ call handle₁ outcome hcall hstage =>
      obtain rfl := hown rfl
      obtain rfl : handle₁ = handle := by
        rcases hbound.own _ hcall with hguards | hended
        · rw [hstage] at hguards
          exact Option.some.inj hguards
        · rw [hstage] at hended
          cases hended
      have hsame : s.removeOwn c₁ handle₁ = s := by
        unfold removeOwn
        rw [hremoved]
      rw [hsame]
      exact ⟨h.nextToken, h.registeredTools, h.allowed, h.pending, hset⟩
  | unknown hnone => exact h
  | @late callId decision approval hpending hdead =>
      obtain rfl : callId = handle := eq_of_beq hconcerns
      cases hremoved.symm.trans hpending
  | @resolve callId decision approval call hpending hcall halive =>
      obtain rfl : callId = handle := eq_of_beq hconcerns
      cases hremoved.symm.trans hpending
  | cancelPending => cases hconcerns

/-- A guard with another handle takes the same entry on both sides. -/
theorem Beside.removeOwn (h : Beside granted c handle s t) {handle₁ : Text}
    (hne : handle₁ ≠ handle) :
    Beside granted c handle (s.removeOwn c₁ handle₁) (t.removeOwn c₁ handle₁) := by
  unfold RemoteApprover.removeOwn
  rw [h.pending handle₁ hne]
  split
  · split
    · exact h.setPending (h.update handle₁ none)
    · exact h
  · exact h

/-- What the entry of another call says of it, it says in both runs. -/
theorem Beside.pending_of (h : Beside granted c handle s t) (hbound : s.Bound c handle)
    (hne : c₁ ≠ c) (hcall : s.calls c₁ = some call) {handle₁ : Text}
    (hhandle : call.stage.handle? = some handle₁) : t.pending handle₁ = s.pending handle₁ := by
  refine h.pending handle₁ ?_
  rintro rfl
  exact hbound.others c₁ call hcall hne hhandle

/-- The move of another call is one in the other run, except that a call of a
granted tool asks there. -/
theorem Beside.moves (h : Beside granted c handle s t) (hbound : s.Bound c handle) (hne : c₁ ≠ c)
    {stage : Stage} (hcall : s.calls c₁ = some call) (hmoves : Moves s c₁ call a stage os) :
    ∃ stage' os', Moves t c₁ call a stage' os' ∧ (stage' = stage ∨
      granted call.tool ∧ stage = .ended (some .allowAll) ∧ stage' = .unlisted) := by
  cases hmoves with
  | listed hstage htool =>
      rcases Classical.em (call.tool ∈ t.allowedTools) with hlisted | hunlisted
      · exact ⟨_, _, .listed hstage hlisted, Or.inl rfl⟩
      · rcases (h.allowed call.tool).mp htool with hlisted | hgranted
        · exact absurd hlisted hunlisted
        · exact ⟨_, _, .unlisted hstage hunlisted, Or.inr ⟨hgranted, rfl, rfl⟩⟩
  | unlisted hstage htool =>
      exact ⟨_, _, .unlisted hstage fun h' => htool ((h.allowed _).mpr (Or.inl h')), Or.inl rfl⟩
  | named hstage => exact ⟨_, _, .named hstage, Or.inl rfl⟩
  | occupied hstage hoccupied =>
      rw [← h.pending_of hbound hne hcall (by rw [hstage]; rfl)] at hoccupied
      exact ⟨_, _, .occupied hstage hoccupied, Or.inl rfl⟩
  | notified hstage => exact ⟨_, _, .notified hstage, Or.inl rfl⟩
  | undelivered hstage => exact ⟨_, _, .undelivered hstage, Or.inl rfl⟩
  | received hstage hreply => exact ⟨_, _, .received hstage hreply, Or.inl rfl⟩
  | @closed handle₁ hstage hreply hsender =>
      have hsame : t.senderDropped c₁ handle₁ = s.senderDropped c₁ handle₁ := by
        unfold senderDropped
        rw [h.pending_of hbound hne hcall (by rw [hstage]; rfl)]
      exact ⟨_, _, .closed hstage hreply (hsame.trans hsender), Or.inl rfl⟩
  | aborted hreceives hguards => exact ⟨_, _, .aborted hreceives hguards, Or.inl rfl⟩
  | abortedEarly hguards hended => exact ⟨_, _, .abortedEarly hguards hended, Or.inl rfl⟩

/-- A decision means the same on both sides. -/
theorem Beside.coreDecision (h : Beside granted c handle s t) (decision : IpcApprovalDecision)
    (tool : Text) : t.coreDecision decision tool = s.coreDecision decision tool := by
  unfold RemoteApprover.coreDecision persists
  rw [h.registeredTools]

/-- The reply of another call, and what it grants. -/
theorem Beside.reply (h : Beside granted c handle s t) (callId : Text)
    (decision : IpcApprovalDecision) (tool : Text) :
    Beside granted c handle
      { s with
        pending := Function.update s.pending callId none
        calls := Function.update s.calls c₁
          (some { call with reply := some (s.coreDecision decision tool) })
        allowedTools :=
          if s.persists decision tool then tool :: s.allowedTools else s.allowedTools }
      { t with
        pending := Function.update t.pending callId none
        calls := Function.update t.calls c₁
          (some { call with reply := some (t.coreDecision decision tool) })
        allowedTools := if t.persists decision tool then tool :: t.allowedTools
          else t.allowedTools } := by
  have hpersists : t.persists decision tool = s.persists decision tool := by
    unfold persists
    rw [h.registeredTools]
  refine ⟨h.nextToken, h.registeredTools, fun tool' => ?_, h.update callId none, fun c' hc' => ?_⟩
  · show tool' ∈ (if s.persists decision tool then _ else _) ↔
      tool' ∈ (if t.persists decision tool then _ else _) ∨ _
    rw [hpersists]
    split
    · rw [List.mem_cons, List.mem_cons, h.allowed tool', or_assoc]
    · exact h.allowed tool'
  · show Alike granted (Function.update s.calls c₁ _ c') (Function.update t.calls c₁ _ c')
    rw [h.coreDecision]
    by_cases hc : c' = c₁
    · subst hc
      rw [Function.update_self, Function.update_self]
      exact Or.inl rfl
    · rw [Function.update_of_ne hc, Function.update_of_ne hc]
      exact h.calls c' hc'

/-- The others keep pace. -/
theorem Beside.visible (h : Beside granted c handle s t) (hbound : s.Bound c handle)
    (hconcerns : a.concerns c handle = false) (hstep : Step s a s' os) :
    ∃ t' os', Step t a t' os' ∧ Beside granted c handle s' t' := by
  have hne : ∀ {c₁}, a.call? = some c₁ → c₁ ≠ c := by
    rintro c₁ hc rfl
    rw [concerns_of_call? hc] at hconcerns
    simp at hconcerns
  cases hstep with
  | request turn providerCallId tool arguments =>
      refine ⟨_, _, .request turn providerCallId tool arguments, ?_, h.registeredTools,
        h.allowed, h.pending, fun c' hc' => ?_⟩
      · exact congrArg (· + 1) h.nextToken
      · show Alike granted (Function.update s.calls s.nextToken _ c')
          (Function.update t.calls t.nextToken _ c')
        rw [h.nextToken]
        by_cases hc : c' = s.nextToken
        · subst hc
          rw [Function.update_self, Function.update_self]
          exact Or.inl rfl
        · rw [Function.update_of_ne hc, Function.update_of_ne hc]
          exact h.calls c' hc'
  | @move c₁ call a stage os hcall hmoves =>
      have hother := hne hmoves.call?
      have hcall' := (h.calls c₁ hother).busy hcall hmoves.busy
      obtain ⟨stage', os', hmoves', hstage⟩ := h.moves hbound hother hcall hmoves
      exact ⟨_, _, .move hcall' hmoves', h.setStage hstage⟩
  | @register c₁ call handle₁ hcall hstage hvacant =>
      have hother := hne rfl
      have hcall' := (h.calls c₁ hother).busy hcall (by rw [hstage]; rfl)
      have hpending := h.pending_of hbound hother hcall (by rw [hstage]; rfl)
      have hset : Beside granted c handle (s.setStage c₁ call (.registered handle₁))
          (t.setStage c₁ call (.registered handle₁)) := h.setStage (Or.inl rfl)
      exact ⟨_, _, .register hcall' hstage (hpending.trans hvacant),
        hset.setPending (h.update handle₁ _)⟩
  | @dropGuard c₁ call handle₁ outcome hcall hstage =>
      have hother := hne rfl
      have hcall' := (h.calls c₁ hother).busy hcall (by rw [hstage]; rfl)
      have hhandle : handle₁ ≠ handle := by
        rintro rfl
        exact hbound.others c₁ call hcall hother (by rw [hstage]; rfl)
      exact ⟨_, _, .dropGuard hcall' hstage, (h.removeOwn hhandle).setStage (Or.inl rfl)⟩
  | @unknown callId decision hnone =>
      have hhandle : callId ≠ handle := ne_of_beq_false hconcerns
      exact ⟨t, _, .unknown ((h.pending callId hhandle).trans hnone), h⟩
  | @late callId decision approval hpending hdead =>
      have hhandle : callId ≠ handle := ne_of_beq_false hconcerns
      have hother : approval.token ≠ c :=
        fun h => hhandle ((hbound.entries callId approval hpending).mp h)
      refine ⟨_, _, .late ((h.pending callId hhandle).trans hpending) fun call hcall => ?_,
        h.setPending (h.update callId none)⟩
      rcases h.calls _ hother with heq | ⟨call', -, -, heq⟩
      · exact hdead call (heq.symm.trans hcall)
      · obtain rfl := Option.some.inj (heq.symm.trans hcall)
        rfl
  | @resolve callId decision approval call hpending hcall halive =>
      have hhandle : callId ≠ handle := ne_of_beq_false hconcerns
      have hother : approval.token ≠ c :=
        fun h => hhandle ((hbound.entries callId approval hpending).mp h)
      have hbusy : call.stage.isEnded = false := by
        cases hstage : call.stage with
        | ended outcome => rw [hstage] at halive; cases halive
        | _ => rfl
      have hcall' := (h.calls _ hother).busy hcall hbusy
      exact ⟨_, _, .resolve ((h.pending callId hhandle).trans hpending) hcall' halive,
        h.reply callId decision approval.tool⟩
  | cancelPending =>
      exact ⟨_, _, .cancelPending, h.nextToken, h.registeredTools, h.allowed, fun _ _ => rfl,
        h.calls⟩

end

/-- No action of the schedule draws the handle again. -/
theorem not_drawn {tr tr' : List Obs} {as : List Action} (h : (machine tools).Takes s as tr' s')
    (hfresh : (names (tr ++ tr')).Nodup) (hnamed : .named c handle ∈ tr) :
    ∀ a ∈ as, ∀ c', a ≠ .name c' handle := by
  rintro a ha c' rfl
  obtain ⟨s₁, s₂, os, hstep, hos⟩ := h.taken ha
  have hstep : Step s₁ (.name c' handle) s₂ os := step_cases hstep
  have hshown : .named c' handle ∈ os := by
    cases hstep with
    | move hcall hmoves =>
        cases hmoves with
        | named hstage => exact List.mem_singleton_self _
  rw [names, List.filterMap_append] at hfresh
  refine (List.nodup_append.mp hfresh).2.2 handle ?_ handle ?_ rfl
  · exact List.mem_filterMap.mpr ⟨_, hnamed, rfl⟩
  · exact List.mem_filterMap.mpr ⟨_, hos hshown, rfl⟩

/-- The other calls come out as if the handle had not been resolved and its
call had not gone on, except those that a tool granted keeps from asking. -/
def Isolated (tools : List Text) (tr : List Obs) (s s' : RemoteApprover) (c : Nat) (handle : Text)
    (granted : Text → Prop) : Prop :=
  ∀ as tr' t, (machine tools).Takes s' as tr' t → (names (tr ++ tr')).Nodup →
    ∃ tr'' u, (machine tools).Takes s (as.filter fun a => !a.concerns c handle) tr'' u ∧
      ∀ c' ≠ c, Alike granted (t.calls c') (u.calls c')

/-- What the two runs keep in common, once the entry of the handle is gone. -/
structure Aside (granted : Text → Prop) (c : Nat) (handle : Text) (s t : RemoteApprover) :
    Prop where
  beside : Beside granted c handle s t
  bound : s.Bound c handle
  removed : s.pending handle = none

/-- What differs in one handle alone comes out alike for every other call. -/
theorem Aside.isolated {tr : List Obs} {granted : Text → Prop} (h : Aside granted c handle s' s)
    (hnamed : .named c handle ∈ tr) : Isolated tools tr s s' c handle granted := by
  intro as tr' t htakes hfresh
  have hhidden : ∀ {s t s' : RemoteApprover} {a : Action} {os : List Obs},
      Aside granted c handle s t → (∀ c', a ≠ .name c' handle) → a.concerns c handle = true →
      (machine tools).step s a = some (s', os) → Aside granted c handle s' t := by
    intro s t s' a os h ha hconcerns hstep
    have hstep : Step s a s' os := step_cases hstep
    exact ⟨h.beside.hidden h.bound h.removed hconcerns hstep, h.bound.step ha hstep,
      h.bound.removed h.removed hstep⟩
  have hvisible : ∀ {s t s' : RemoteApprover} {a : Action} {os : List Obs},
      Aside granted c handle s t → (∀ c', a ≠ .name c' handle) → a.concerns c handle = false →
      (machine tools).step s a = some (s', os) →
      ∃ t' os', (machine tools).step t a = some (t', os') ∧ Aside granted c handle s' t' := by
    intro s t s' a os h ha hconcerns hstep
    have hstep : Step s a s' os := step_cases hstep
    obtain ⟨t', os', hstep', hbeside⟩ := h.beside.visible h.bound hconcerns hstep
    exact ⟨t', os', hstep'.step, hbeside, h.bound.step ha hstep, h.bound.removed h.removed hstep⟩
  obtain ⟨tr'', u, htakes', haside⟩ :=
    htakes.unwind (Aside granted c handle) (Action.concerns c handle)
      (fun a => ∀ c', a ≠ .name c' handle) hhidden hvisible (not_drawn htakes hfresh hnamed) h
  exact ⟨tr'', u, htakes', fun c' hne => haside.beside.calls c' hne⟩

/-! ## A `resolve` that returns false -/

/-- A step that is not about the handle leaves its call as it is. -/
theorem Becomes.unconcerned (h : Becomes s c call a call') (hbound : s.Bound c handle)
    (hconcerns : a.concerns c handle = false) : call' = call := by
  have hown : a.call? ≠ some c := by
    intro ha
    rw [concerns_of_call? ha] at hconcerns
    simp at hconcerns
  cases h with
  | same ha => rfl
  | moved hmoves => exact absurd hmoves.call? hown
  | registered hstage => exact absurd rfl hown
  | dropped hstage => exact absurd rfl hown
  | @replied callId decision approval hpending htoken halive =>
      obtain rfl := (hbound.entries callId approval hpending).mp htoken
      simp [Action.concerns] at hconcerns

/-- A call that guards an entry and has its answer is about to leave. -/
theorem leaving_of_guards {stage : Stage} (hguards : stage.guards = some handle)
    (hspent : stage.receives = false) : ∃ outcome, stage = .leaving handle outcome := by
  cases stage with
  | leaving handle' outcome =>
      obtain rfl := Option.some.inj hguards
      exact ⟨outcome, rfl⟩
  | registered handle' => cases hspent
  | waiting handle' => cases hspent
  | _ => cases hguards

/-- A call that is leaving makes no move. -/
theorem Moves.not_leaving {stage : Stage} (h : Moves s c call a stage os)
    {outcome : Option ApprovalDecision} : call.stage ≠ .leaving handle outcome := by
  intro hleaving
  cases h with
  | listed hstage htool => cases hstage.symm.trans hleaving
  | unlisted hstage htool => cases hstage.symm.trans hleaving
  | named hstage => cases hstage.symm.trans hleaving
  | occupied hstage hpending => cases hstage.symm.trans hleaving
  | notified hstage => cases hstage.symm.trans hleaving
  | undelivered hstage => cases hstage.symm.trans hleaving
  | received hstage hreply => cases hstage.symm.trans hleaving
  | closed hstage hreply hsender => cases hstage.symm.trans hleaving
  | aborted hreceives hguards => rw [hleaving] at hreceives; cases hreceives
  | abortedEarly hguards hended => rw [hleaving] at hguards; cases hguards

/-- The handle of a call that does not receive is taken from the map, if it is
there, and that is all. -/
theorem Bound.resolve_false (h : s.Bound c handle) (hcall : s.calls c = some call)
    (hspent : call.stage.receives = false) (decision : IpcApprovalDecision) :
    Step s (.resolve handle decision) { s with pending := Function.update s.pending handle none }
      [.unresolved handle decision] := by
  cases hpending : s.pending handle with
  | none =>
      have hsame : Function.update s.pending handle none = s.pending := by
        rw [← hpending]
        exact Function.update_eq_self ..
      rw [hsame]
      exact .unknown hpending
  | some e =>
      refine .late hpending fun call' hcall' => ?_
      rw [(h.entries handle e hpending).mpr rfl] at hcall'
      obtain rfl := Option.some.inj (hcall.symm.trans hcall')
      exact hspent

/-- Two states that differ in the entry of one handle, whose call does not
receive any more. -/
structure Level (c : Nat) (handle : Text) (s t : RemoteApprover) : Prop where
  beside : Beside (fun _ => False) c handle s t
  own : ∃ call, s.calls c = some call ∧ t.calls c = some call ∧ call.stage.receives = false
  left : s.Bound c handle
  right : t.Bound c handle

theorem removeOwn_pending_of_ne {handle' : Text} (hne : handle' ≠ handle) :
    (s.removeOwn c handle).pending handle' = s.pending handle' := by
  unfold removeOwn
  split
  · split
    · exact Function.update_of_ne hne _ _
    · rfl
  · rfl

/-- The handle of the two states is taken from the map. -/
theorem Level.take (h : Level c handle s t) {p q : Text → Option PendingApproval}
    (hp : ∀ handle' e, p handle' = some e → s.pending handle' = some e)
    (hq : ∀ handle' e, q handle' = some e → t.pending handle' = some e)
    (hsame : ∀ handle', handle' ≠ handle → q handle' = p handle') :
    Level c handle { s with pending := p } { t with pending := q } :=
  ⟨h.beside.setPending hsame, h.own, h.left.remove hp, h.right.remove hq⟩

/-- A step of the call is to drop its guard; a `resolve` of its handle fails
in both. -/
theorem Level.own_step (h : Level c handle s t) (hcall : s.calls c = some call)
    (hcall' : t.calls c = some call) (hspent : call.stage.receives = false)
    (ha : ∀ c', a ≠ .name c' handle) (hconcerns : a.concerns c handle = true)
    (hstep : Step s a s' os) : ∃ t' os', Step t a t' os' ∧ Level c handle s' t' := by
  have hown : ∀ {c₁}, a.call? = some c₁ → c₁ = c := by
    intro c₁ hc
    rw [concerns_of_call? hc] at hconcerns
    exact eq_of_beq hconcerns
  have hremoved : ∀ handle' e, Function.update t.pending handle none handle' = some e →
      t.pending handle' = some e := fun _ _ he => (update_none_eq_some he).2
  cases hstep with
  | request turn providerCallId tool arguments => cases hconcerns
  | move hcall₁ hmoves =>
      obtain rfl := hown hmoves.call?
      obtain rfl := Option.some.inj (hcall.symm.trans hcall₁)
      rcases h.left.own _ hcall with hguards | hended
      · obtain ⟨outcome, hstage⟩ := leaving_of_guards hguards hspent
        exact absurd hstage hmoves.not_leaving
      · cases hended.symm.trans hmoves.busy
  | register hcall₁ hstage hvacant => exact absurd (hown rfl) (h.left.named_ne hcall₁ hstage).1
  | @dropGuard c₁ call₁ handle₁ outcome hcall₁ hstage =>
      obtain rfl := hown rfl
      obtain rfl := Option.some.inj (hcall.symm.trans hcall₁)
      obtain rfl : handle₁ = handle := by
        rcases h.left.own _ hcall with hguards | hended
        · rw [hstage] at hguards
          exact Option.some.inj hguards
        · rw [hstage] at hended
          cases hended
      have hdrop : Step t (.dropGuard c₁) _ _ := .dropGuard hcall' hstage
      have hdropped := h.left.step ha (.dropGuard hcall hstage)
      refine ⟨_, _, hdrop, ?_, ⟨_, Function.update_self .., Function.update_self .., rfl⟩, hdropped,
        h.right.step ha hdrop⟩
      refine Beside.setStage ?_ (Or.inl rfl)
      rw [removeOwn_eq s, removeOwn_eq t]
      refine h.beside.setPending fun handle' hne => ?_
      rw [removeOwn_pending_of_ne hne, removeOwn_pending_of_ne hne, h.beside.pending handle' hne]
  | @unknown callId decision hnone =>
      obtain rfl : callId = handle := eq_of_beq hconcerns
      refine ⟨_, _, h.right.resolve_false hcall' hspent decision,
        h.take (fun _ _ he => he) hremoved fun handle' hne => ?_⟩
      exact (Function.update_of_ne hne _ _).trans (h.beside.pending handle' hne)
  | @late callId decision approval hpending hdead =>
      obtain rfl : callId = handle := eq_of_beq hconcerns
      refine ⟨_, _, h.right.resolve_false hcall' hspent decision,
        h.take (fun _ _ he => (update_none_eq_some he).2) hremoved fun handle' hne => ?_⟩
      rw [Function.update_of_ne hne, Function.update_of_ne hne, h.beside.pending handle' hne]
  | @resolve callId decision approval call₁ hpending hcall₁ halive =>
      obtain rfl : callId = handle := eq_of_beq hconcerns
      rw [(h.left.entries callId approval hpending).mpr rfl] at hcall₁
      obtain rfl := Option.some.inj (hcall.symm.trans hcall₁)
      cases halive.symm.trans hspent
  | cancelPending => cases hconcerns

/-- Both take the same steps. -/
theorem Level.step (h : Level c handle s t) (ha : ∀ c', a ≠ .name c' handle)
    (hstep : Step s a s' os) : ∃ t' os', Step t a t' os' ∧ Level c handle s' t' := by
  obtain ⟨call, hcall, hcall', hspent⟩ := h.own
  cases hconcerns : a.concerns c handle with
  | false =>
      obtain ⟨t', os', hstep', hbeside⟩ := h.beside.visible h.left hconcerns hstep
      obtain ⟨call₁, hcall₁, hbecomes⟩ := hstep.becomes h.left.born hcall
      obtain ⟨call₂, hcall₂, hbecomes'⟩ := hstep'.becomes h.right.born hcall'
      obtain rfl := hbecomes.unconcerned h.left hconcerns
      obtain rfl := hbecomes'.unconcerned h.right hconcerns
      exact ⟨t', os', hstep', hbeside, ⟨_, hcall₁, hcall₂, hspent⟩, h.left.step ha hstep,
        h.right.step ha hstep'⟩
  | true => exact h.own_step hcall hcall' hspent ha hconcerns hstep

theorem Level.symm (h : Level c handle s t) : Level c handle t s := by
  obtain ⟨call, hcall, hcall', hspent⟩ := h.own
  refine ⟨⟨h.beside.nextToken.symm, h.beside.registeredTools.symm, fun tool => ?_,
    fun handle' hne => (h.beside.pending handle' hne).symm, fun c' hne => ?_⟩,
    ⟨call, hcall', hcall, hspent⟩, h.right, h.left⟩
  · simpa using (h.beside.allowed tool).symm
  · rcases h.beside.calls c' hne with heq | ⟨_, hfalse, -⟩
    · exact Or.inl heq.symm
    · exact hfalse.elim

/-- The same calls, and the same tools granted. -/
def Same (s t : RemoteApprover) : Prop :=
  t.calls = s.calls ∧ ∀ tool, tool ∈ t.allowedTools ↔ tool ∈ s.allowedTools

theorem Level.same (h : Level c handle s t) : Same s t := by
  refine ⟨?_, fun tool => by simpa using (h.beside.allowed tool).symm⟩
  funext c'
  by_cases hc : c' = c
  · subst hc
    obtain ⟨call, hcall, hcall', -⟩ := h.own
    exact hcall'.trans hcall.symm
  · rcases h.beside.calls c' hc with heq | ⟨_, hfalse, -⟩
    · exact heq
    · exact hfalse.elim

/-- What goes on from the one state goes on in the same way from the other. -/
def Replays (tools : List Text) (tr : List Obs) (s t : RemoteApprover) : Prop :=
  ∀ as tr' s', (machine tools).Takes s as tr' s' → (names (tr ++ tr')).Nodup →
    ∃ tr'' t', (machine tools).Takes t as tr'' t' ∧ Same s' t'

/-- Whatever one side does the other can do, under the same schedule. -/
theorem Level.replays {tr : List Obs} (h : Level c handle s t) (hnamed : .named c handle ∈ tr) :
    Replays tools tr s t := by
  intro as tr' s' htakes hfresh
  have hvisible : ∀ {s t s' : RemoteApprover} {a : Action} {os : List Obs},
      Level c handle s t → (∀ c', a ≠ .name c' handle) → false = false →
      (machine tools).step s a = some (s', os) →
      ∃ t' os', (machine tools).step t a = some (t', os') ∧ Level c handle s' t' := by
    intro s t s' a os h ha _ hstep
    obtain ⟨t', os', hstep', hlevel⟩ := h.step ha (step_cases hstep)
    exact ⟨t', os', hstep'.step, hlevel⟩
  obtain ⟨tr'', t', htakes', hlevel⟩ :=
    htakes.unwind (Level c handle) (fun _ => false) (fun a => ∀ c', a ≠ .name c' handle)
      (fun _ _ hhide _ => by cases hhide) hvisible (not_drawn htakes hfresh hnamed) h
  have hall : as.filter (fun _ => !false) = as := List.filter_eq_self.mpr fun _ _ => rfl
  rw [hall] at htakes'
  exact ⟨tr'', t', htakes', hlevel.same⟩

/-! ## Runs -/

/-- A decision that finds its call touches that call alone, but for a grant. -/
theorem resolve_isolated {tr : List Obs} (hsound : Sound tools tr s) (hhandles : Handles tr s)
    (hfresh : (names tr).Nodup) {decision : IpcApprovalDecision} {tool : Text}
    (hstep : Step s (.resolve handle decision) s' os) (hmem : .resolved handle decision tool ∈ os) :
    ∃ c, .named c handle ∈ tr ∧ Isolated tools tr s s' c handle
      (fun t => t = tool ∧ decision = .allowAll ∧ tool ∈ tools) := by
  have hdrawn : ∀ c', Action.resolve handle decision ≠ .name c' handle := nofun
  have hkept : ∀ c, s.Bound c handle → s'.Bound c handle := fun c hbound =>
    hbound.step hdrawn hstep
  cases hstep with
  | move hcall hmoves => cases hmoves
  | unknown hnone => simp at hmem
  | late hpending hdead => simp at hmem
  | @resolve _ _ approval call hpending hcall halive =>
      obtain ⟨-, -, rfl⟩ := Obs.resolved.inj (List.mem_singleton.mp hmem)
      obtain ⟨call₁, hcall₁, hguards⟩ := hhandles.guarded handle approval hpending
      obtain rfl := Option.some.inj (hcall.symm.trans hcall₁)
      have hnamed := hhandles.drawn _ call handle hcall (Stage.handle?_of_guards hguards)
      have hbound := hhandles.bound hfresh hsound.unborn hnamed hcall (Or.inl hguards)
      refine ⟨approval.token, hnamed, Aside.isolated ⟨⟨rfl, rfl, fun tool => ?_,
        fun handle' hne => (Function.update_of_ne hne _ _).symm,
        fun c' hne => Or.inl (Function.update_of_ne hne _ _).symm⟩, hkept _ hbound,
        Function.update_self ..⟩ hnamed⟩
      have hpersists : s.persists decision approval.tool = true ↔
          decision = .allowAll ∧ approval.tool ∈ tools := by
        rw [← hsound.tools_eq]
        exact persists_iff
      show tool ∈ (if s.persists decision approval.tool then _ else _) ↔ _
      split
      · rename_i hgrant
        rw [List.mem_cons, or_comm]
        simp [hpersists.mp hgrant]
      · rename_i hgrant
        constructor
        · exact Or.inl
        · rintro (hold | ⟨-, hgrant'⟩)
          · exact hold
          · exact absurd (hpersists.mpr hgrant') hgrant

/-- A decision that finds none changes nothing that could show. -/
theorem resolve_replays {tr : List Obs} (hsound : Sound tools tr s) (hhandles : Handles tr s)
    (hfresh : (names tr).Nodup) {decision : IpcApprovalDecision}
    (hstep : Step s (.resolve handle decision) s' os) (hmem : .unresolved handle decision ∈ os) :
    Same s s' ∧ Replays tools tr s s' ∧ Replays tools tr s' s := by
  have hdrawn : ∀ c', Action.resolve handle decision ≠ .name c' handle := nofun
  have hkept : ∀ c, s.Bound c handle → s'.Bound c handle := fun c hbound =>
    hbound.step hdrawn hstep
  cases hstep with
  | move hcall hmoves => cases hmoves
  | resolve hpending hcall halive => simp at hmem
  | unknown hnone =>
      have hself : Replays tools tr s s := fun as tr' s' htakes _ =>
        ⟨tr', s', htakes, rfl, fun _ => Iff.rfl⟩
      exact ⟨⟨rfl, fun _ => Iff.rfl⟩, hself, hself⟩
  | @late _ _ approval hpending hdead =>
      obtain ⟨call, hcall, hguards⟩ := hhandles.guarded handle approval hpending
      have hnamed := hhandles.drawn _ call handle hcall (Stage.handle?_of_guards hguards)
      have hbound := hhandles.bound hfresh hsound.unborn hnamed hcall (Or.inl hguards)
      have hlevel : Level approval.token handle s
          { s with pending := Function.update s.pending handle none } :=
        ⟨⟨rfl, rfl, fun _ => (or_iff_left id).symm, fun _ hne => Function.update_of_ne hne _ _,
          fun _ _ => Or.inl rfl⟩, ⟨call, hcall, hcall, hdead call hcall⟩, hbound, hkept _ hbound⟩
      exact ⟨hlevel.same, hlevel.replays hnamed, hlevel.symm.replays hnamed⟩

/-- Decisions are delivered once and to their own call. In every run in which
no handle is drawn twice, a handle is resolved once at most, the call that
drew it returns what was decided unless it is aborted, and the other calls
come out as without the decision, but for the calls of a tool it grants for
the session; a `resolve` that returns false changes nothing for any call. -/
theorem decisions_delivered {log : List (Action ⊕ Obs)}
    (h : (machine tools).logged.Run (fun _ _ _ => True) log s)
    (hfresh : (names (observed log)).Nodup) :
    (resolvedHandles (observed log)).Nodup ∧
    (∀ handle decision tool, .inr (.resolved handle decision tool) ∈ log →
      ∃ c, .inr (.named c handle) ∈ log ∧ (∀ c', .inr (.named c' handle) ∈ log → c' = c) ∧
        Delivers tools log s c ((new tools).coreDecision decision tool)) ∧
    (∀ handle decision tool s' os, s.step (.resolve handle decision) = some (s', os) →
      .resolved handle decision tool ∈ os →
        ∃ c, .inr (.named c handle) ∈ log ∧ Isolated tools (observed log) s s' c handle
          (fun t => t = tool ∧ decision = .allowAll ∧ tool ∈ tools)) ∧
    ∀ handle decision s' os, s.step (.resolve handle decision) = some (s', os) →
      .unresolved handle decision ∈ os →
        Same s s' ∧ Replays tools (observed log) s s' ∧ Replays tools (observed log) s' s := by
  have hsound := (run_sound (observed_run h)).1
  have hhandles := run_handles (observed_run h)
  obtain ⟨hsettled, honce⟩ := run_settled h hfresh
  refine ⟨honce, fun handle decision tool hmem => ?_, ?_, ?_⟩
  · obtain ⟨c, call, hsettled⟩ := hsettled handle decision tool hmem
    exact ⟨c, hsettled.named, fun c' hc' => named_inj hfresh (mem_observed.mpr hc')
      (mem_observed.mpr hsettled.named), hsettled.delivers h⟩
  · intro handle decision tool s' os hstep hmem
    obtain ⟨c, hnamed, hisolated⟩ :=
      resolve_isolated hsound hhandles hfresh (step_cases hstep) hmem
    exact ⟨c, mem_observed.mp hnamed, hisolated⟩
  · intro handle decision s' os hstep hmem
    exact resolve_replays hsound hhandles hfresh (step_cases hstep) hmem

/-- Two calls of one tool wait, and the first is answered. -/
def twoCalls : List Action :=
  [.request 0 "p".toList "bash".toList .null, .request 0 "p".toList "bash".toList .null, .check 0,
    .name 0 "h".toList, .register 0, .notify 0]

/-- The answer is on its way to the call that asked. -/
theorem decisions_delivered_deny : ∃ (log : List (Action ⊕ Obs)) (s : RemoteApprover) (c : Nat),
    (machine ["bash".toList]).logged.Run (fun _ _ _ => True) log s ∧
    .inr (.resolved "h".toList .deny "bash".toList) ∈ log ∧ .inr (.named c "h".toList) ∈ log ∧
    Delivers ["bash".toList] log s c .deny := by
  obtain ⟨s, hrun⟩ : ∃ s, (machine ["bash".toList]).logged.Run (fun _ _ _ => True)
      [.inl (.request 0 "p".toList "bash".toList .null),
        .inl (.request 0 "p".toList "bash".toList .null), .inl (.check 0),
        .inl (.name 0 "h".toList), .inr (.named 0 "h".toList), .inl (.register 0),
        .inr (.registered 0 "h".toList), .inl (.notify 0), .inl (.resolve "h".toList .deny),
        .inr (.resolved "h".toList .deny "bash".toList)] s :=
    ⟨_, Machine.Run.exec (fun _ _ _ => true) (fun _ _ _ _ => trivial)
      (twoCalls ++ [.resolve "h".toList .deny]) .start rfl⟩
  have hfresh : (names [.named 0 "h".toList, .registered 0 "h".toList,
      .resolved "h".toList .deny "bash".toList]).Nodup := List.pairwise_singleton _ _
  obtain ⟨-, hdelivered, -⟩ := decisions_delivered hrun hfresh
  obtain ⟨c, hnamed, -, hdelivers⟩ := hdelivered "h".toList .deny "bash".toList (by simp)
  exact ⟨_, s, c, hrun, by simp, hnamed, hdelivers⟩

/-- An `allow_all` reaches the other call of the tool: it does not ask. -/
theorem allow_all_reaches_other_call : ∃ (log : List (Action ⊕ Obs)) (s s' : RemoteApprover)
    (os : List Obs), (machine ["bash".toList]).logged.Run (fun _ _ _ => True) log s ∧
    (names (observed log)).Nodup ∧ .inr (.named 0 "h".toList) ∈ log ∧
    s.step (.resolve "h".toList .allowAll) = some (s', os) ∧
    .resolved "h".toList .allowAll "bash".toList ∈ os ∧
    ¬Isolated ["bash".toList] (observed log) s s' 0 "h".toList (fun _ => False) := by
  have hrun : (machine ["bash".toList]).logged.Run (fun _ _ _ => True) _ _ :=
    Machine.Run.exec (fun _ _ _ => true) (fun _ _ _ _ => trivial) twoCalls .start rfl
  refine ⟨_, _, _, _, hrun, List.pairwise_singleton _ _, by simp, rfl,
    List.mem_singleton_self _, ?_⟩
  intro hisolated
  obtain ⟨tr, u, htakes, hother⟩ :=
    hisolated [.check 1] _ _ (.cons rfl (.nil _)) (List.pairwise_singleton _ _)
  have htakes : (machine ["bash".toList]).Takes _ [.check 1] tr u := htakes
  cases htakes with
  | cons hstep hrest =>
      cases hrest
      obtain rfl := congrArg Prod.fst (Option.some.inj hstep)
      rcases hother 1 Nat.one_ne_zero with heq | ⟨_, hfalse, -⟩
      · have hstage : some Stage.unlisted = some (.ended (some .allowAll)) :=
          congrArg (Option.map ApproveCall.stage) heq
        cases hstage
      · exact hfalse

end RemoteApprover

end PeakcodeDaemon
