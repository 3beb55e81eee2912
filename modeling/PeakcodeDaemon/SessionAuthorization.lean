import PeakcodeDaemon.Authorization
import PeakcodeDaemon.WorkerSteps

/-!
# What a tool call of a session is allowed by

The worker drives the approver, so what the approver guarantees in every
run it guarantees in every session: whatever the daemon and the agent do,
a call of `approve` comes back with permission because its tool was
granted for the session, or because its own handle was.

- **a run of the worker is one of its approver** (`Step.approver`,
  `run_approver`): a step of the worker is a step of the approver with the
  same observations, or leaves it alone. This is the bridge that all
  results about sessions cross.
- **handles** (`names_sublist`): those drawn for calls are among all that
  are drawn, for calls and for events, so that it is enough to ask that no
  handle is drawn twice in the session.
-/

namespace PeakcodeDaemon

namespace Worker

variable {Message : Type} {setup : Setup Message}

/-- What is observed of the approver. -/
def approverObs? : Obs Message → Option RemoteApprover.Obs
  | .approver o => some o
  | _ => none

/-- What is observed of the approver in a run. -/
def approverTrace (tr : List (Obs Message)) : List RemoteApprover.Obs := tr.filterMap approverObs?

/-- The handle drawn, whether for a call or for an event. -/
def drawn? : Obs Message → Option Text
  | .approver (.named _ handle) => some handle
  | .drew handle => some handle
  | _ => none

/-- The results of `new_handle`, in order. -/
def drawn (tr : List (Obs Message)) : List Text := tr.filterMap drawn?

theorem drawn_append {tr os : List (Obs Message)} : drawn (tr ++ os) = drawn tr ++ drawn os :=
  List.filterMap_append

theorem approverTrace_map (os : List RemoteApprover.Obs) :
    (os.map Obs.approver : List (Obs Message)).filterMap approverObs? = os := by
  rw [List.filterMap_map]
  exact List.filterMap_some

theorem approverTrace_drew (handles : List Text) :
    (handles.map Obs.drew : List (Obs Message)).filterMap approverObs? = [] := by
  rw [List.filterMap_map, List.filterMap_eq_nil_iff]
  intro handle _
  rfl

@[simp] theorem breakLoop_approver (s : Worker Message) (result : Ended) :
    (s.breakLoop result).approver = s.approver := rfl

@[simp] theorem join_approver (s : Worker Message) (outcome : Outcome Message) :
    (s.join outcome).approver = s.approver := by
  cases outcome <;> rfl

/-- A step of the worker is a step of its approver, or leaves it alone. -/
theorem Step.approver {s s' : Worker Message} {a : Action Message} {os : List (Obs Message)}
    (h : Step setup s a s' os) :
    s'.approver = s.approver ∧ os.filterMap approverObs? = [] ∨
      ∃ b, s.approver.step b = some (s'.approver, os.filterMap approverObs?) := by
  cases h with
  | @approve callId decision hpc =>
      refine Or.inr ⟨.resolve callId decision, ?_⟩
      show _ = some (_, List.filterMap approverObs? (List.map _ _))
      rw [approverTrace_map]
      rfl
  | cancelCompleted hpc houtcome => exact Or.inr ⟨.cancelPending, rfl⟩
  | cancelDeadline hpc => exact Or.inr ⟨.cancelPending, rfl⟩
  | stopDone hpc => exact Or.inr ⟨.cancelPending, rfl⟩
  | abortDone hpc => exact Or.inr ⟨.cancelPending, rfl⟩
  | @call action approver os hallows hstep =>
      refine Or.inr ⟨action, ?_⟩
      rw [approverTrace_map]
      exact hstep
  | @name c handle call hcall hstage =>
      refine Or.inr ⟨.name c handle, ?_⟩
      simp [RemoteApprover.step, hcall, hstage, approverObs?]
  | @notify c handle call hcall hstage =>
      refine Or.inr ⟨.notify c, ?_⟩
      simp [RemoteApprover.step, hcall, hstage]
  | holdEvent hpc hactive hpending hevents ha =>
      exact Or.inl ⟨rfl, approverTrace_drew _⟩
  | joinTurn hpc houtcome => exact Or.inl ⟨join_approver _ _, rfl⟩
  | _ => exact Or.inl ⟨rfl, rfl⟩

/-- A run of the worker is one of its approver. -/
theorem run_approver {A : List (Obs Message) → Worker Message → Action Message → Prop}
    {tr : List (Obs Message)} {s : Worker Message} (h : (machine setup).Run A tr s) :
    (RemoteApprover.machine setup.registeredTools).Run (fun _ _ _ => True) (approverTrace tr)
      s.approver := by
  refine h.project (f := Worker.approver) (g := approverObs?) rfl ?_
  intro tr os s s' a _ _ hstep
  rcases (step_cases hstep).approver with hidle | ⟨b, hb⟩
  · exact Or.inl hidle
  · exact Or.inr ⟨b, trivial, hb⟩

/-- The handles drawn for calls are among those drawn. -/
theorem names_sublist : ∀ tr : List (Obs Message),
    (RemoteApprover.names (approverTrace tr)).Sublist (drawn tr)
  | [] => .slnil
  | o :: tr => by
      have htail := names_sublist tr
      cases o with
      | approver o =>
          cases o with
          | named c handle => exact htail.cons_cons handle
          | _ => exact htail
      | drew handle => exact htail.cons handle
      | _ => exact htail

theorem mem_approverTrace {o : RemoteApprover.Obs} {tr : List (Obs Message)} :
    o ∈ approverTrace tr ↔ .approver o ∈ tr := by
  rw [approverTrace, List.mem_filterMap]
  constructor
  · rintro ⟨o', hmem, ho⟩
    cases o' with
    | approver o'' =>
        obtain rfl := Option.some.inj ho
        exact hmem
    | _ => cases ho
  · intro hmem
    exact ⟨_, hmem, rfl⟩

/-- The call was granted under a handle, and no other call of the run has
that handle. -/
def GrantedOwn (tr past : List (Obs Message)) (c : Nat) (tool : Text) : Prop :=
  ∃ handle, RemoteApprover.Granted (approverTrace past) c handle tool ∧
    ∀ c', .approver (.named c' handle) ∈ tr → c' = c

/-- In every session in which no handle is drawn twice, a call of `approve`
is allowed only if its tool was granted for the session, or if its own
handle was resolved in its favour while it was registered. -/
theorem permission_has_reason {tr : List (Obs Message)} {s : Worker Message}
    (h : (machine setup).Run (fun _ _ _ => True) tr s) (hfresh : (drawn tr).Nodup) :
    Always (fun past o => ∀ c tool decision, o = .approver (.returned c tool decision) →
      decision ≠ .deny →
        RemoteApprover.Listed setup.registeredTools (approverTrace past) tool ∨
          GrantedOwn tr past c tool) tr := by
  have hrun := run_approver h
  have hjustified := always_of_filterMap (RemoteApprover.run_sound hrun).2
  have hhandles := RemoteApprover.run_handles hrun
  have hnames : (RemoteApprover.names (approverTrace tr)).Nodup := hfresh.sublist (names_sublist tr)
  intro past o rest heq c tool decision ho hne
  subst ho
  rcases hjustified past _ rest heq _ rfl hne with hlisted | ⟨handle, hgranted⟩
  · exact Or.inl hlisted
  · refine Or.inr ⟨handle, hgranted, fun c' hc' => ?_⟩
    have hmem : .registered c handle ∈ approverTrace tr := by
      rw [heq, approverTrace, List.filterMap_append]
      exact List.mem_append_left _ hgranted.registered_mem
    exact RemoteApprover.named_inj hnames (mem_approverTrace.mpr hc')
      (hhandles.registered c handle hmem)

/-- A call is asked for, allowed by the daemon and returns. -/
theorem permission_has_reason_allow : ∃ tr s,
    (machine (plainSetup ["bash".toList])).Run (fun _ _ _ => True) tr s ∧
    Obs.approver (.returned 0 "bash".toList .allow) ∈ tr ∧
    Always (fun past o => ∀ c tool decision, o = .approver (.returned c tool decision) →
      decision ≠ .deny →
        RemoteApprover.Listed ["bash".toList] (approverTrace past) tool ∨
          GrantedOwn tr past c tool) tr := by
  have hrun : (machine (plainSetup ["bash".toList])).Run (fun _ _ _ => True)
      [.started 0 "run".toList ["run".toList], .approver (.named 0 "h".toList),
        .asked 0 ⟨"h".toList, "bash".toList, "null".toList⟩,
        .approver (.registered 0 "h".toList), .approver (.resolved "h".toList .allow "bash".toList),
        .approver (.returned 0 "bash".toList .allow)] _ :=
    Machine.Run.exec (fun _ _ _ => true) (fun _ _ _ _ => trivial)
      [.command (.input "run".toList), .startTurn,
        .call (.request 0 "p".toList "bash".toList .null), .call (.check 0),
        .call (.name 0 "h".toList), .call (.register 0), .call (.notify 0),
        .command (.approve "h".toList .allow), .call (.receive 0), .call (.dropGuard 0)] .start rfl
  exact ⟨_, _, hrun, by simp, permission_has_reason hrun (by decide)⟩

end Worker

end PeakcodeDaemon
