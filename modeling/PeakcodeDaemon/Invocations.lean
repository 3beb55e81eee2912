import PeakcodeDaemon.IssuedHandles
import PeakcodeDaemon.WorkerInputs
import PeakcodeDaemon.Lib.JobTable

/-!
# Tool invocations

The agent of a turn invokes its tools one after another. Each invocation
is a call of `approve`, unless the tool needs none, then `ToolStart`, then
`ToolResult`, all under the provider's call id, which later invocations
may repeat. What the agent did so far spells its invocations (`Spells`),
of which only the last may be incomplete (`Invoking`), and what its
channel holds is an end of that (`Spells.tail`, `Spells.peel`).

- **the map of call ids** (`Mapped`, `Tabled`): it holds what the open
  jobs need. A `ToolStart` that is mapped is the first open job's
  (`Tabled.start`), a `ToolResult` gives the handle up
  (`Tabled.finish`), and an approval may take an id over that no buffered
  event has (`Tabled.ask`).
- **which invocation carries which handle** (`carried`, `OneHandle`): read
  off the observations alone, by turn and place in the turn, so that the
  property does not mention the map.

The jobs are a ghost: the code has no list of invocations. They are in
`Lib/JobTable`, apart from the agent, where a job is an id and perhaps a
handle.
-/

namespace PeakcodeDaemon

/-- What the agent does for an invocation, under the provider's call id. -/
inductive ToolAct where
  | approve (providerCallId : Text)
  | start (providerCallId : Text)
  | result (providerCallId : Text)
deriving DecidableEq

def ToolAct.isResult : ToolAct → Bool
  | .result _ => true
  | _ => false

/-- The act, if it is an event. -/
def ToolAct.emitted : ToolAct → List ToolAct
  | .approve _ => []
  | act => [act]

/-- The events of an invocation. -/
def AgentEvent.toolAct? : AgentEvent → Option ToolAct
  | .toolStart callId _ _ => some (.start callId)
  | .toolResult callId _ _ _ => some (.result callId)
  | _ => none

def tools (events : List AgentEvent) : List ToolAct := events.filterMap AgentEvent.toolAct?

@[simp] theorem tools_append (events events' : List AgentEvent) :
    tools (events ++ events') = tools events ++ tools events' :=
  List.filterMap_append

/-- The invocations that have come to their result. -/
def resultCount (events : List AgentEvent) : Nat := (tools events).countP ToolAct.isResult

/-- Where an agent is in its invocations. -/
inductive Invoking where
  | between
  | asked (providerCallId : Text)
  | started (providerCallId : Text)
deriving DecidableEq

namespace Invoking

/-- One invocation after another, each under one id. -/
def next : Invoking → ToolAct → Option Invoking
  | .between, .approve id => some (.asked id)
  | .between, .start id => some (.started id)
  | .asked id, .start id' => if id' = id then some (.started id) else none
  | .started id, .result id' => if id' = id then some .between else none
  | _, _ => none

/-- The invocation an act begins. -/
def begun : Invoking → ToolAct → List Text
  | .between, .approve id | .between, .start id => [id]
  | _, _ => []

/-- What invocations that are complete emit. -/
def spell (ids : List Text) : List ToolAct := ids.flatMap fun id => [.start id, .result id]

@[simp] theorem spell_append (ids ids' : List Text) :
    spell (ids ++ ids') = spell ids ++ spell ids' :=
  List.flatMap_append

theorem spell_cons (id : Text) (ids : List Text) :
    spell (id :: ids) = .start id :: .result id :: spell ids := rfl

theorem countP_spell : ∀ ids : List Text, (spell ids).countP ToolAct.isResult = ids.length
  | [] => rfl
  | id :: ids => by
      rw [spell_cons, List.countP_cons_of_neg Bool.false_ne_true, List.countP_cons_of_pos rfl,
        countP_spell ids, List.length_cons]

theorem result_mem_spell {id : Text} {ids : List Text} (h : id ∈ ids) : .result id ∈ spell ids :=
  List.mem_flatMap.mpr ⟨id, h, by simp⟩

/-- The acts are those of the invocations under these ids, of which the last
is as far as this. -/
inductive Spells : Invoking → List Text → List ToolAct → Prop
  | between (ids : List Text) : Spells .between ids (spell ids)
  | asked (ids : List Text) (id : Text) : Spells (.asked id) (ids ++ [id]) (spell ids)
  | started (ids : List Text) (id : Text) :
      Spells (.started id) (ids ++ [id]) (spell ids ++ [.start id])

variable {phase phase' : Invoking} {ids closed opened : List Text} {acts : List ToolAct} {id : Text}

theorem Spells.next (h : phase.Spells ids acts) {act : ToolAct}
    (hnext : phase.next act = some phase') :
    phase'.Spells (ids ++ phase.begun act) (acts ++ act.emitted) := by
  cases h with
  | between ids =>
      cases act with
      | approve id =>
          obtain rfl := Option.some.inj hnext
          rw [ToolAct.emitted, List.append_nil]
          exact .asked ids id
      | start id =>
          obtain rfl := Option.some.inj hnext
          exact .started ids id
      | result id => cases hnext
  | asked ids id =>
      cases act with
      | start id' =>
          rw [Invoking.next] at hnext
          split at hnext
          · rename_i hid
            obtain rfl := hid
            obtain rfl := Option.some.inj hnext
            show Spells (.started id') (ids ++ [id'] ++ []) (spell ids ++ [.start id'])
            rw [List.append_nil]
            exact .started ids id'
          · cases hnext
      | approve id' => cases hnext
      | result id' => cases hnext
  | started ids id =>
      cases act with
      | result id' =>
          rw [Invoking.next] at hnext
          split at hnext
          · rename_i hid
            obtain rfl := hid
            obtain rfl := Option.some.inj hnext
            show Spells .between (ids ++ [id'] ++ []) (spell ids ++ [.start id'] ++ [.result id'])
            have hspell : spell ids ++ [.start id'] ++ [.result id'] = spell (ids ++ [id']) := by
              simp [spell]
            rw [List.append_nil, hspell]
            exact .between _
          · cases hnext
      | approve id' => cases hnext
      | start id' => cases hnext

/-- A complete invocation comes off the front. -/
theorem Spells.tail (h : phase.Spells (id :: ids) (.start id :: .result id :: acts)) :
    phase.Spells ids acts := by
  generalize hids : id :: ids = all at h
  generalize hacts : ToolAct.start id :: .result id :: acts = spelled at h
  cases h with
  | between =>
      subst hids
      rw [spell_cons] at hacts
      obtain rfl := (List.cons.inj (List.cons.inj hacts).2).2
      exact .between ids
  | asked ids' id' =>
      cases ids' with
      | nil => cases hacts
      | cons id₀ ids' =>
          obtain ⟨rfl, rfl⟩ := List.cons.inj hids
          obtain rfl := (List.cons.inj (List.cons.inj hacts).2).2
          exact .asked ids' id'
  | started ids' id' =>
      cases ids' with
      | nil => cases hacts
      | cons id₀ ids' =>
          obtain ⟨rfl, rfl⟩ := List.cons.inj hids
          obtain rfl := (List.cons.inj (List.cons.inj hacts).2).2
          exact .started ids' id'

theorem Spells.peel : ∀ {closed : List Text},
    phase.Spells (closed ++ opened) (spell closed ++ acts) →
    phase.Spells opened acts
  | [], h => h
  | _ :: _, h => Spells.peel h.tail

/-- What starts is the first that is open. -/
theorem Spells.head_start (h : phase.Spells ids (.start id :: acts)) :
    ∃ ids', ids = id :: ids' := by
  generalize hacts : ToolAct.start id :: acts = spelled at h
  cases h with
  | between ids =>
      cases ids with
      | nil => cases hacts
      | cons id₀ ids =>
          obtain rfl := ToolAct.start.inj (List.cons.inj hacts).1
          exact ⟨ids, rfl⟩
  | asked ids id' =>
      cases ids with
      | nil => cases hacts
      | cons id₀ ids =>
          obtain rfl := ToolAct.start.inj (List.cons.inj hacts).1
          exact ⟨ids ++ [id'], rfl⟩
  | started ids id' =>
      cases ids with
      | nil =>
          obtain rfl := ToolAct.start.inj (List.cons.inj hacts).1
          exact ⟨[], rfl⟩
      | cons id₀ ids =>
          obtain rfl := ToolAct.start.inj (List.cons.inj hacts).1
          exact ⟨ids ++ [id'], rfl⟩

/-- Nothing has its result before it starts. -/
theorem Spells.not_result (h : phase.Spells ids (.result id :: acts)) : False := by
  generalize hacts : ToolAct.result id :: acts = spelled at h
  cases h with
  | between ids => cases ids <;> cases hacts
  | asked ids id' => cases ids <;> cases hacts
  | started ids id' => cases ids <;> cases hacts

/-- Nothing of an invocation that was asked for has started. -/
theorem Spells.not_started {id' : Text} (h : Spells (.asked id') [id] (.start id :: acts)) :
    False := by
  generalize hids : [id] = ids at h
  generalize hacts : ToolAct.start id :: acts = spelled at h
  cases h with
  | asked ids =>
      cases ids with
      | nil => cases hacts
      | cons id₀ ids => cases ids <;> cases hids

/-- What has started has its result next. -/
theorem Spells.second {act : ToolAct} (h : phase.Spells ids (.start id :: act :: acts)) :
    act = .result id := by
  generalize hacts : ToolAct.start id :: act :: acts = spelled at h
  cases h with
  | between ids =>
      cases ids with
      | nil => cases hacts
      | cons id₀ ids => cases hacts; rfl
  | asked ids id' =>
      cases ids with
      | nil => cases hacts
      | cons id₀ ids => cases hacts; rfl
  | started ids id' =>
      cases ids with
      | nil => cases hacts
      | cons id₀ ids => cases hacts; rfl

end Invoking

/-! ## The map of call ids -/

open JobTable Invoking

/-- How far the coordinator is: what it has mapped are the closed jobs, and
perhaps the start of the first open one, which has its handle. -/
inductive Mapped (closed rest : List (Job Text Text)) : List ToolAct → Prop
  | between : Mapped closed rest (spell (closed.map Prod.fst))
  | started {id handle : Text} {after : List (Job Text Text)}
      (h : rest = (id, some handle) :: after) :
      Mapped closed rest (spell (closed.map Prod.fst) ++ [.start id])

/-- The map holds what the open jobs need. -/
def Tabled (acts : List ToolAct) (callIds : CallIdMapper) (own : List (Job Text Text)) : Prop :=
  ∃ closed rest, own = closed ++ rest ∧ callIds.active = lookup rest ∧ Unshadowed rest ∧
    Mapped closed rest acts

section

variable {phase : Invoking} {acts buffered : List ToolAct} {callIds : CallIdMapper}
  {own before closed rest : List (Job Text Text)} {id : Text}

theorem Tabled.empty : Tabled [] .empty [] :=
  ⟨[], [], rfl, rfl, .nil, .between⟩

theorem Mapped.append (h : Mapped closed rest acts) (jobs : List (Job Text Text)) :
    Mapped closed (rest ++ jobs) acts := by
  cases h with
  | between => exact .between
  | started hrest => exact .started (by rw [hrest]; rfl)

theorem Tabled.open (h : Tabled acts callIds own) (ids : List Text) :
    Tabled acts callIds (own ++ opened ids) := by
  obtain ⟨closed, rest, rfl, htable, hrest, hmapped⟩ := h
  exact ⟨closed, rest ++ opened ids, List.append_assoc .., by rw [lookup_open, htable],
    hrest.open ids, hmapped.append _⟩

/-- The results mapped are those of the closed jobs. -/
theorem Mapped.closed_length (h : Mapped closed rest acts) :
    acts.countP ToolAct.isResult = closed.length := by
  cases h with
  | between => rw [countP_spell, List.length_map]
  | started hrest =>
      rw [List.countP_append, countP_spell, List.length_map]
      rfl

/-- What is open is spelled from where the coordinator is. -/
theorem Mapped.spells (h : Mapped closed rest acts)
    (hspells : phase.Spells ((closed ++ rest).map Prod.fst) (acts ++ buffered)) :
    (acts = spell (closed.map Prod.fst) ∧ phase.Spells (rest.map Prod.fst) buffered) ∨
    ∃ id handle after, rest = (id, some handle) :: after ∧
      acts = spell (closed.map Prod.fst) ++ [.start id] ∧
      phase.Spells (rest.map Prod.fst) (.start id :: buffered) := by
  rw [List.map_append] at hspells
  cases h with
  | between => exact Or.inl ⟨rfl, hspells.peel⟩
  | started hrest =>
      rw [List.append_assoc] at hspells
      exact Or.inr ⟨_, _, _, hrest, rfl, hspells.peel⟩

theorem Mapped.give_last {handle : Text} (h : Mapped closed (rest ++ [(id, none)]) acts) :
    Mapped closed (rest ++ [(id, some handle)]) acts := by
  generalize hlast : rest ++ [(id, none)] = all at h
  cases h with
  | between => exact .between
  | started hall =>
      rw [hall] at hlast
      cases rest with
      | nil => cases hlast
      | cons job rest =>
          obtain ⟨rfl, -⟩ := List.cons.inj hlast
          exact .started rfl

/-- An agent that has asked has brought what it began before to its result. -/
theorem Mapped.asked (h : Mapped closed rest acts)
    (hspells : Spells (.asked id) ((closed ++ rest).map Prod.fst) (acts ++ buffered)) :
    ∃ done job, rest = done ++ [job] ∧ job.1 = id ∧ ∀ job ∈ done, .result job.1 ∈ buffered := by
  have hlast : ∀ {spelled : List ToolAct}, Spells (.asked id) (rest.map Prod.fst) spelled →
      ∃ done job, rest = done ++ [job] ∧ job.1 = id ∧ spelled = spell (done.map Prod.fst) := by
    intro spelled hrest
    generalize hids : rest.map Prod.fst = ids at hrest
    cases hrest with
    | asked ids =>
        obtain ⟨done, after, rfl, rfl, hafter⟩ := List.map_eq_append_iff.mp hids
        obtain ⟨job, rfl, hjob⟩ := List.map_eq_singleton_iff.mp hafter
        exact ⟨done, job, rfl, hjob, rfl⟩
  rcases h.spells hspells with ⟨-, hrest⟩ | ⟨first, handle, after, -, -, hrest⟩
  · obtain ⟨done, job, hdone, hjob, rfl⟩ := hlast hrest
    exact ⟨done, job, hdone, hjob, fun _ hmem => result_mem_spell (List.mem_map_of_mem hmem)⟩
  · obtain ⟨done, job, hdone, hjob, hspell⟩ := hlast hrest
    refine ⟨done, job, hdone, hjob, fun job hmem => ?_⟩
    have hresult := result_mem_spell (List.mem_map_of_mem (f := Prod.fst) hmem)
    rw [← hspell] at hresult
    exact (List.mem_cons.mp hresult).resolve_left nofun

/-- An approval takes an id over that no buffered event has. -/
theorem Tabled.ask (h : Tabled acts callIds (before ++ [(id, none)]))
    (hspells : Spells (.asked id) ((before ++ [(id, none)]).map Prod.fst) (acts ++ buffered))
    (hvacant : .result id ∉ buffered) (handle : Text) :
    Tabled acts (callIds.startApproval id handle) (before ++ [(id, some handle)]) := by
  obtain ⟨closed, rest, heq, htable, hrest, hmapped⟩ := h
  rw [heq] at hspells
  obtain ⟨done, job, rfl, -, hdone⟩ := hmapped.asked hspells
  rw [← List.append_assoc] at heq
  obtain ⟨rfl, hjob⟩ := List.append_inj' heq rfl
  obtain rfl := List.singleton_inj.mp hjob
  have hfree : ∀ job ∈ done, job.1 ≠ id := by
    rintro job hmem rfl
    exact hvacant (hdone job hmem)
  refine ⟨closed, done ++ [(id, some handle)], List.append_assoc .., ?_,
    hrest.give_last handle hfree, hmapped.give_last⟩
  have hopen : lookup (done ++ [(id, none)]) = lookup done := lookup_open [id] done
  rw [lookup_give_last handle hfree, ← hopen, ← htable]
  rfl

/-- A `ToolStart` that is mapped is the first open job's. -/
theorem Tabled.start (h : Tabled acts callIds own)
    (hspells : phase.Spells (own.map Prod.fst) (acts ++ .start id :: buffered)) :
    ∃ closed rest, own = closed ++ (id, callIds.active id) :: rest ∧
      acts.countP ToolAct.isResult = closed.length ∧
      ((∃ id', phase = .asked id') → rest ≠ []) ∧
      ∀ fresh, Tabled (acts ++ [.start id]) (callIds.startEvent id fresh).2.2
        (closed ++ (id, some ((callIds.active id).getD fresh)) :: rest) := by
  obtain ⟨closed, rest, rfl, htable, hrest, hmapped⟩ := h
  rcases hmapped.spells hspells with ⟨hacts, hspells⟩ | ⟨first, handle, after, -, -, hspells⟩
  · obtain ⟨ids, hids⟩ := hspells.head_start
    obtain ⟨job, after, rfl, rfl, rfl⟩ := List.map_eq_cons_iff.mp hids
    obtain ⟨id, o⟩ := job
    have hactive : callIds.active id = o := by rw [htable, lookup_head]
    refine ⟨closed, after, by rw [hactive], hmapped.closed_length, ?_, fun fresh => ?_⟩
    · rintro ⟨id', rfl⟩ rfl
      exact hspells.not_started
    · rw [hactive]
      cases o with
      | some handle =>
          rw [CallIdMapper.startEvent_some hactive]
          exact ⟨closed, _, rfl, htable, hrest, hacts ▸ .started rfl⟩
      | none =>
          rw [CallIdMapper.startEvent_none hactive]
          refine ⟨closed, (id, some fresh) :: after, rfl, ?_, hrest.give_first fresh,
            hacts ▸ .started rfl⟩
          rw [lookup_give_first, ← htable]
          rfl
  · cases hspells.second

/-- A `ToolResult` that is mapped is the first open job's, which has its handle. -/
theorem Tabled.finish (h : Tabled acts callIds own)
    (hspells : phase.Spells (own.map Prod.fst) (acts ++ .result id :: buffered)) :
    ∃ closed handle rest, own = closed ++ (id, some handle) :: rest ∧
      acts.countP ToolAct.isResult = closed.length ∧ callIds.active id = some handle ∧
      ∀ fresh, Tabled (acts ++ [.result id]) (callIds.finish id fresh).2.2 own := by
  obtain ⟨closed, rest, rfl, htable, hrest, hmapped⟩ := h
  rcases hmapped.spells hspells with ⟨-, hspells⟩ | ⟨first, handle, after, rfl, hacts, hspells⟩
  · exact absurd hspells Spells.not_result
  · obtain rfl := ToolAct.result.inj hspells.second
    have hactive : callIds.active id = some handle := by rw [htable, lookup_head]
    refine ⟨closed, handle, after, rfl, hmapped.closed_length, hactive, fun fresh => ?_⟩
    rw [CallIdMapper.finish_some hactive]
    have hspelled : acts ++ [.result id] =
        spell ((closed ++ [(id, some handle)]).map Prod.fst) := by
      rw [hacts]
      simp [spell]
    refine ⟨closed ++ [(id, some handle)], after, by simp, ?_, hrest.tail, hspelled ▸ .between⟩
    rw [hrest.lookup_close, ← htable]

end

/-- The handle an event of an invocation is sent under. -/
def Held.toolHandle? (held : Held) : Option Text :=
  (held.item.core?.bind AgentEvent.toolAct?).bind fun _ => held.event.callId?

namespace Worker

variable {Message : Type} {setup : Setup Message} {tr os : List (Obs Message)} {log : Log Message}
  {s s' : Worker Message} {a : Action Message} {turn : Nat} {act : ToolAct}

/-! ## What the agents did -/

/-- What is observed in a run with its actions. -/
def observed (log : Log Message) : List (Obs Message) := log.filterMap Sum.getRight?

theorem observed_append (log : Log Message) (a : Action Message) (os : List (Obs Message)) :
    observed (log ++ .inl a :: os.map .inr) = observed log ++ os := by
  rw [observed, List.filterMap_append, Machine.filterMap_inr]
  rfl

/-- What the agent of a turn does for an invocation. -/
def toolAct? : Action Message → Option (Nat × ToolAct)
  | .call (.request turn providerCallId _ _) => some (turn, .approve providerCallId)
  | .emit turn event => event.toolAct?.map fun act => (turn, act)
  | _ => none

def actOf? (turn : Nat) : Action Message ⊕ Obs Message → Option ToolAct
  | .inl a => (toolAct? a).bind fun (turn', act) => if turn' = turn then some act else none
  | .inr _ => none

/-- What the agent of a turn has done for its invocations. -/
def acts (turn : Nat) (log : Log Message) : List ToolAct := log.filterMap (actOf? turn)

/-- Where the agent of a turn is, if it went one invocation after another. -/
def invoking (turn : Nat) (log : Log Message) : Option Invoking :=
  (acts turn log).foldlM Invoking.next .between

/-- The agent of a turn goes on with its invocations one after another. -/
def oneByOne (log : Log Message) (a : Action Message) : Bool :=
  match toolAct? a with
  | some (turn, act) => ((invoking turn log).bind fun phase => phase.next act).isSome
  | none => true

/-- An approval takes over an id that no event in the channel has. -/
def vacant (s : Worker Message) : Action Message → Bool
  | .call (.name c _) => (s.approver.calls c).all fun call =>
      s.active != some call.turn || (s.tasks call.turn).events.all fun event =>
        event.toolAct? != some (.start call.providerCallId) &&
          event.toolAct? != some (.result call.providerCallId)
  | _ => true

theorem acts_append (turn : Nat) (log : Log Message) (a : Action Message)
    (os : List (Obs Message)) :
    acts turn (log ++ .inl a :: os.map .inr) = acts turn log ++ (actOf? turn (.inl a)).toList := by
  have hos : (os.map Sum.inr).filterMap (actOf? turn) = ([] : List ToolAct) := by
    rw [List.filterMap_map]
    exact List.filterMap_eq_nil_iff.mpr fun _ _ => rfl
  rw [acts, List.filterMap_append, acts]
  cases hact : actOf? turn (.inl a) with
  | none => rw [List.filterMap_cons_none hact, hos]; rfl
  | some act => rw [List.filterMap_cons_some hact, hos]; rfl

/-- The agent of a turn does what the action is. -/
theorem invoking_act (h : toolAct? a = some (turn, act)) (log : Log Message)
    (os : List (Obs Message)) :
    invoking turn (log ++ .inl a :: os.map .inr) =
      (invoking turn log).bind fun phase => phase.next act := by
  have hact : actOf? turn (.inl a) = some act := by simp [actOf?, h]
  rw [invoking, acts_append, hact, List.foldlM_append]
  show (invoking turn log >>= fun phase => phase.next act >>= pure) = _
  simp

/-- Another agent does, or none. -/
theorem invoking_other (h : ∀ act, toolAct? a ≠ some (turn, act)) (log : Log Message)
    (os : List (Obs Message)) :
    invoking turn (log ++ .inl a :: os.map .inr) = invoking turn log := by
  have hact : actOf? turn (.inl a) = none := by
    cases htool : toolAct? a with
    | none => simp [actOf?, htool]
    | some pair =>
        obtain ⟨turn', act⟩ := pair
        by_cases hturn : turn' = turn
        · subst hturn
          exact absurd htool (h act)
        · simp [actOf?, htool, hturn]
  rw [invoking, acts_append, hact]
  exact congrArg (List.foldlM Invoking.next .between) (List.append_nil _)

/-! ## Which invocation carries which handle -/

/-- What an observation shows of an invocation: its turn, its place in the turn
and its handle. A `NeedsApproval` has the handle it was asked under. -/
def carried (past : List (Obs Message)) : Obs Message → Option (Nat × Nat × Text)
  | .asked turn notice => some (turn, resultCount (emitted turn past), notice.callId)
  | .enqueued held => held.toolHandle?.map fun handle =>
      (held.turn, resultCount (cores (sent held.turn past)), handle)
  | _ => none

/-- The `i`th invocation of the turn has the handle in one of its events. -/
def Carries (tr : List (Obs Message)) (turn i : Nat) (handle : Text) : Prop :=
  Sometime (fun past o => carried past o = some (turn, i, handle)) tr

/-- An invocation has one handle, and no two have the same. -/
def OneHandle (tr : List (Obs Message)) : Prop :=
  ∀ turn i handle turn' i' handle', Carries tr turn i handle → Carries tr turn' i' handle' →
    (handle = handle' ↔ turn = turn' ∧ i = i')

theorem Carries.append_iff {i : Nat} {handle : Text} : Carries (tr ++ os) turn i handle ↔
    Carries tr turn i handle ∨
      Sometime (fun past o => carried (tr ++ past) o = some (turn, i, handle)) os :=
  sometime_append

end Worker

end PeakcodeDaemon
