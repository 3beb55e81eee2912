import PeakcodeDaemon.ApprovalCalls

/-!
# Registrations and the calls they belong to

Handles are fresh in practice, but the pending map does not rest on it. An
entry carries the token of the call that made it, and the guard of a call
takes no entry with another token, so the map stays in step with the calls
whatever handles are drawn: each entry has its one call, a call takes its
own entry with it when it ends, and a call that finds its place taken goes
away without a trace.

- **each entry has its call** (`Owns`, `Tracks`): one invariant, kept by
  every step because only the owner's own steps and `resolve` touch an
  entry.
- **others are left alone** (`Step.others_kept`, `Step.ends`): what a call
  does to the map, said entry by entry.
- **dropping a future** (`Drops`, `drops_busy`): wherever a call is, its
  future can be dropped, and then its entry goes with it and no other.
- **a taken place** (`register_occupied`): the call is refused and the
  entry there stays.

`oneHandle` is the collision itself: three calls that are given one
handle.
-/

namespace PeakcodeDaemon

namespace RemoteApprover

variable {tools : List Text} {tr os : List Obs} {s s' : RemoteApprover} {a : Action} {c : Nat}
  {call call' : ApproveCall} {handle handle' : Text} {e : PendingApproval}

/-- The entry is the call's: it has the call's token and tool, it stands
under the handle the call guards, and the call has not ended. -/
structure Owns (s : RemoteApprover) (c : Nat) (handle : Text) (e : PendingApproval) : Prop where
  token : e.token = c
  guarded : ∃ call, s.Busy c call ∧ call.stage.guards = some handle ∧ call.tool = e.tool

/-- Every entry has its call. -/
def Tracks (s : RemoteApprover) : Prop :=
  ∀ handle e, s.pending handle = some e → s.Owns e.token handle e

theorem isEnded_of_guards {stage : Stage} (h : stage.guards = some handle) :
    stage.isEnded = false := by
  cases stage with
  | ended outcome => cases h
  | _ => rfl

theorem run_tracks {A : List Obs → RemoteApprover → Action → Prop}
    (h : (machine tools).Run A tr s) : s.Tracks := by
  intro handle e he
  obtain ⟨call, hcall, hguards⟩ := (run_handles h).guarded handle e he
  obtain ⟨call', hcall', htool, -⟩ := (run_sound h).1.entry handle e he
  obtain rfl := Option.some.inj (hcall.symm.trans hcall')
  exact ⟨rfl, call, ⟨hcall, isEnded_of_guards hguards⟩, hguards, htool⟩

theorem Tracks.guards (h : s.Tracks) (hcall : s.calls c = some call)
    (he : s.pending handle = some e) (htoken : e.token = c) : call.stage.guards = some handle := by
  obtain ⟨-, call', ⟨hcall', -⟩, hguards, -⟩ := h handle e he
  rw [htoken] at hcall'
  obtain rfl := Option.some.inj (hcall.symm.trans hcall')
  exact hguards

/-- A call that guards nothing has no entry. -/
theorem Tracks.none_own (h : s.Tracks) (hcall : s.calls c = some call)
    (hguards : call.stage.guards = none) (he : s.pending handle = some e) : e.token ≠ c := by
  intro htoken
  cases hguards.symm.trans (h.guards hcall he htoken)

theorem Tracks.handle_unique (h : s.Tracks) {e' : PendingApproval}
    (he : s.pending handle = some e) (he' : s.pending handle' = some e')
    (htoken : e.token = e'.token) : handle = handle' := by
  obtain ⟨-, call, ⟨hcall, -⟩, hguards, -⟩ := h handle e he
  exact Option.some.inj (hguards.symm.trans (h.guards hcall he' htoken.symm))

/-! ## What a step does to the entries -/

/-- What a call does leaves the entries of the others alone. -/
theorem Step.others_kept (h : Step s a s' os) (ha : a.call? = some c) (he : e.token ≠ c) :
    s'.pending handle = some e ↔ s.pending handle = some e := by
  cases h with
  | move hcall hmoves => exact Iff.rfl
  | @register c' call' own hcall hstage hvacant =>
      obtain rfl := Option.some.inj ha
      constructor
      · intro h
        rcases update_eq_some (f := s.pending) h with ⟨-, rfl⟩ | ⟨-, h⟩
        · exact absurd rfl he
        · exact h
      · intro h
        refine (Function.update_of_ne ?_ _ _).trans h
        rintro rfl
        cases hvacant.symm.trans h
  | dropGuard hcall hstage =>
      obtain rfl := Option.some.inj ha
      exact removeOwn_pending.trans (and_iff_left fun h => he h.2)
  | request turn providerCallId tool arguments => cases ha
  | unknown hnone => cases ha
  | late hpending hdead => cases ha
  | resolve hpending hcall halive => cases ha
  | cancelPending => cases ha

theorem Moves.unguarded_of_ended {stage : Stage} (h : Moves s c call a stage os)
    (hended : stage.isEnded = true) : call.stage.guards = none := by
  cases h with
  | listed hstage htool => rw [hstage]; rfl
  | occupied hstage hpending => rw [hstage]; rfl
  | abortedEarly hguards hstage => exact hguards
  | _ => cases hended

/-- A call that ends takes its own entry with it, and no other. -/
theorem Step.ends (h : Step s a s' os) (htracks : s.Tracks) (hbusy : s.Busy c call)
    (hcall' : s'.calls c = some call') (hended : call'.stage.isEnded = true) :
    s'.pending handle = some e ↔ s.pending handle = some e ∧ e.token ≠ c := by
  have hnot : ∀ {call₁ : ApproveCall}, s.calls c = some call₁ → call₁.stage.isEnded ≠ true := by
    intro call₁ hcall₁
    obtain rfl := Option.some.inj (hbusy.1.symm.trans hcall₁)
    rw [hbusy.2]
    exact Bool.false_ne_true
  cases h with
  | move hcall hmoves =>
      rcases setStage_calls hcall' with ⟨rfl, rfl⟩ | ⟨-, hold⟩
      · have hguards := hmoves.unguarded_of_ended hended
        exact (and_iff_left_of_imp fun he => htracks.none_own hcall hguards he).symm
      · exact absurd hended (hnot hold)
  | register hcall hstage hvacant =>
      rcases setStage_calls hcall' with ⟨rfl, rfl⟩ | ⟨-, hold⟩
      · cases hended
      · exact absurd hended (hnot hold)
  | @dropGuard c₁ call₁ own outcome hcall hstage =>
      rcases setStage_calls hcall' with ⟨rfl, rfl⟩ | ⟨-, hold⟩
      · refine removeOwn_pending.trans (and_congr_right fun he => not_congr ?_)
        refine and_iff_right_of_imp fun htoken => ?_
        have hguards := htracks.guards hcall he htoken
        rw [hstage] at hguards
        exact (Option.some.inj hguards).symm
      · rw [removeOwn_calls] at hold
        exact absurd hended (hnot hold)
  | request turn providerCallId tool arguments =>
      rcases update_eq_some hcall' with ⟨rfl, rfl⟩ | ⟨-, hold⟩
      · cases hended
      · exact absurd hended (hnot hold)
  | resolve hpending hcall halive =>
      rcases update_eq_some hcall' with ⟨rfl, rfl⟩ | ⟨-, hold⟩
      · exact (hnot hcall hended).elim
      · exact absurd hended (hnot hold)
  | unknown hnone => exact absurd hended (hnot hcall')
  | late hpending hdead => exact absurd hended (hnot hcall')
  | cancelPending => exact absurd hended (hnot hcall')

/-! ## Aborts -/

/-- The steps that drop a future: its receiver goes, then its guard. -/
def Drops (c : Nat) (as : List Action) : Prop := ∀ a ∈ as, a = .abort c ∨ a = .dropGuard c

/-- A call whose guard is left to drop drops it. -/
theorem drops_leaving (hrun : (machine tools).Run (fun _ _ _ => True) tr s)
    (hcall : s.calls c = some call) {outcome : Option ApprovalDecision}
    (hstage : call.stage = .leaving handle outcome) :
    ∃ tr' s', (machine tools).Takes s [.dropGuard c] tr' s' ∧
      (∃ call', s'.calls c = some call' ∧ call'.stage.isEnded = true) ∧
      ∀ handle' e, s'.pending handle' = some e ↔ s.pending handle' = some e ∧ e.token ≠ c := by
  have hstep := Step.dropGuard hcall hstage
  have hended : ((s.removeOwn c handle).setStage c call (.ended outcome)).calls c
      = some { call with stage := .ended outcome } := Function.update_self ..
  have hbusy : s.Busy c call := ⟨hcall, by rw [hstage]; rfl⟩
  exact ⟨_, _, .cons hstep.step (.nil _), ⟨_, hended, rfl⟩,
    fun handle' e => hstep.ends (run_tracks hrun) hbusy hended rfl⟩

/-- A call can be dropped wherever it is, and its entry goes with it. -/
theorem drops_busy (hrun : (machine tools).Run (fun _ _ _ => True) tr s) (hbusy : s.Busy c call) :
    ∃ as tr' s', Drops c as ∧ (machine tools).Takes s as tr' s' ∧
      (∃ call', s'.calls c = some call' ∧ call'.stage.isEnded = true) ∧
      ∀ handle e, s'.pending handle = some e ↔ s.pending handle = some e ∧ e.token ≠ c := by
  by_cases hreceives : call.stage.receives = true
  · -- the receiver goes first, and the guard is dropped in the state it leaves
    obtain ⟨handle, hguards⟩ := Stage.guards_of_receives hreceives
    have hmoves : Moves s c call (.abort c) (.leaving handle none) [] := .aborted hreceives hguards
    have hstep : (machine tools).step s (.abort c)
        = some (s.setStage c call (.leaving handle none), []) := hmoves.step hbusy.1
    have hcall₁ : (s.setStage c call (.leaving handle none)).calls c
        = some { call with stage := .leaving handle none } := Function.update_self ..
    obtain ⟨tr', s', htakes, hended, hpending⟩ :=
      drops_leaving (hrun.step trivial hstep) hcall₁ rfl
    exact ⟨[.abort c, .dropGuard c], _, s', by simp [Drops], .cons hstep htakes, hended, hpending⟩
  · cases hguards : call.stage.guards with
    | none =>
        have hmoves : Moves s c call (.abort c) (.ended none) [] := .abortedEarly hguards hbusy.2
        have hstep := hmoves.step hbusy.1
        have hended : (s.setStage c call (.ended none)).calls c
            = some { call with stage := .ended none } := Function.update_self ..
        exact ⟨[.abort c], _, _, by simp [Drops], .cons hstep (.nil _), ⟨_, hended, rfl⟩,
          fun handle e => (step_cases hstep).ends (run_tracks hrun) hbusy hended rfl⟩
    | some handle =>
        cases hstage : call.stage with
        | leaving own outcome =>
            obtain ⟨tr', s', htakes, hended, hpending⟩ := drops_leaving hrun hbusy.1 hstage
            exact ⟨[.dropGuard c], _, s', by simp [Drops], htakes, hended, hpending⟩
        | registered own => rw [hstage] at hreceives; exact absurd rfl hreceives
        | waiting own => rw [hstage] at hreceives; exact absurd rfl hreceives
        | _ => rw [hstage] at hguards; cases hguards

/-! ## The map and the calls -/

/-- A call whose place is taken is refused, and the entry there stays. -/
theorem register_occupied (hcall : s.calls c = some call) (hstage : call.stage = .named handle)
    (he : s.pending handle = some e) :
    s.step (.register c)
      = some (s.setStage c call (.ended (some .deny)), [.returned c call.tool .deny]) :=
  (Moves.occupied hstage (by rw [he]; rfl)).step hcall

theorem Tracks.empty (h : s.Tracks)
    (hended : ∀ c call, s.calls c = some call → call.stage.isEnded = true) :
    s.pending = fun _ => none := by
  funext handle
  cases he : s.pending handle with
  | none => rfl
  | some e =>
      obtain ⟨-, call, ⟨hcall, hbusy⟩, -, -⟩ := h handle e he
      rw [hended _ _ hcall] at hbusy
      cases hbusy

/-- In every run, whatever handles are drawn: each entry belongs to exactly
one call that has not ended, and no call has two; a call leaves the entries
of the others alone, and takes its own with it when it ends or is dropped,
which it can be at any point; a call whose place is taken is denied; and
once all calls have ended the map is empty. -/
theorem registrations_track_calls {A : List Obs → RemoteApprover → Action → Prop}
    (h : (machine tools).Run A tr s) :
    (∀ handle e, s.pending handle = some e → ∃! c, s.Owns c handle e) ∧
    (∀ handle handle' e e', s.pending handle = some e → s.pending handle' = some e' →
      e.token = e'.token → handle = handle') ∧
    (∀ a s' os, s.step a = some (s', os) → ∀ c, a.call? = some c →
      ∀ handle e, e.token ≠ c → (s'.pending handle = some e ↔ s.pending handle = some e)) ∧
    (∀ a s' os, s.step a = some (s', os) → ∀ c call call', s.Busy c call →
      s'.calls c = some call' → call'.stage.isEnded = true →
      ∀ handle e, s'.pending handle = some e ↔ s.pending handle = some e ∧ e.token ≠ c) ∧
    (∀ c call, s.Busy c call → ∃ as tr' s', Drops c as ∧ (machine tools).Takes s as tr' s' ∧
      (∃ call', s'.calls c = some call' ∧ call'.stage.isEnded = true) ∧
      ∀ handle e, s'.pending handle = some e ↔ s.pending handle = some e ∧ e.token ≠ c) ∧
    (∀ c call handle e, s.calls c = some call → call.stage = .named handle →
      s.pending handle = some e → ∃ s', s.step (.register c)
        = some (s', [.returned c call.tool .deny]) ∧ s'.pending = s.pending) ∧
    ((∀ c call, s.calls c = some call → call.stage.isEnded = true) →
      s.pending = fun _ => none) := by
  have htracks := run_tracks h
  have hrun := h.mono (B := fun _ _ _ => True) fun _ _ _ _ => trivial
  refine ⟨?_, ?_, ?_, ?_, ?_, ?_, htracks.empty⟩
  · intro handle e he
    exact ⟨e.token, htracks handle e he, fun c hc => hc.token.symm⟩
  · exact fun handle handle' e e' he he' => htracks.handle_unique he he'
  · exact fun a s' os hstep c ha handle e he => (step_cases hstep).others_kept ha he
  · exact fun a s' os hstep c call call' hbusy hcall' hended handle e =>
      (step_cases hstep).ends htracks hbusy hcall' hended
  · exact fun c call hbusy => drops_busy hrun hbusy
  · exact fun c call handle e hcall hstage he =>
      ⟨_, register_occupied hcall hstage he, rfl⟩

/-- Three calls of one handle: the first is resolved, the second registers
before the guard of the first is dropped, and the third is refused. -/
def oneHandle : List Action :=
  [.request 0 "p".toList "bash".toList .null, .check 0, .name 0 "h".toList, .register 0, .notify 0,
    .resolve "h".toList .allow, .request 0 "q".toList "bash".toList .null, .check 1,
    .name 1 "h".toList, .register 1, .receive 0, .dropGuard 0,
    .request 0 "r".toList "bash".toList .null, .check 2, .name 2 "h".toList, .register 2]

/-- The entry is still the second call's. -/
theorem registrations_track_calls_collision : ∃ (tr : List Obs) (s : RemoteApprover),
    (machine ["bash".toList]).Run (fun _ _ _ => True) tr s ∧
    .returned 2 "bash".toList .deny ∈ tr ∧ s.pending "h".toList = some ⟨1, "bash".toList⟩ ∧
    ∃! c, s.Owns c "h".toList ⟨1, "bash".toList⟩ := by
  obtain ⟨s, hrun, hentry⟩ : ∃ s, (machine ["bash".toList]).Run (fun _ _ _ => True)
      [.named 0 "h".toList, .registered 0 "h".toList, .resolved "h".toList .allow "bash".toList,
        .named 1 "h".toList, .registered 1 "h".toList, .returned 0 "bash".toList .allow,
        .named 2 "h".toList, .returned 2 "bash".toList .deny] s ∧
      s.pending "h".toList = some ⟨1, "bash".toList⟩ :=
    ⟨_, Machine.Run.exec (fun _ _ _ => true) (fun _ _ _ _ => trivial) oneHandle .start rfl, rfl⟩
  exact ⟨_, s, hrun, by simp, hentry, (registrations_track_calls hrun).1 _ _ hentry⟩

end RemoteApprover

end PeakcodeDaemon
