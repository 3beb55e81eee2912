import PeakcodeDaemon.InvocationHandles
import PeakcodeDaemon.Lib.Lockstep
import PeakcodeDaemon.Session
import PeakcodeDaemon.TerminalEvents
import PeakcodeDaemon.WorkerInputs

/-!
# The worker is a session

Every run of the worker is explained by a session that is worked off step
by step: the same inputs, the same turns started from the same messages,
and what goes into the event channel is what the session says, in its
order.

- **the relation** (`Explains`): the session has the worker's inputs,
  turns and messages (`Recorded`), each turn said what its own agent
  emitted (`Kept`), and how far the session is goes by where the
  coordinator is (`Stands`).
- **when something is said**: an ordinary event counts as said once it is
  taken from the agent, an approval request once it is sent. So what a
  cancelled turn leaves behind, its held event, was said while it was
  still at work, and the request that `Cancel` drops never was.
- **a step is answered** (`Answers`, `step`): by no step of the session
  (`Answers.silent`, `beside`), by one, or by two where a turn is cut
  short and the session ends (`cutShort`). One lemma for each rule of the
  worker, and the frame lemmas (`frame`, `untouched`) for what a rule
  leaves alone.

The session may be ahead of the worker by the held event, and at the end
it may have said one event that never went out. That is what the worker
does, not a slack of the proof: past its deadline it gives up with an
event in its hand.
-/

namespace PeakcodeDaemon

namespace Worker

variable {Message : Type} {setup : Setup Message} {log : Log Message} {tr os : List (Obs Message)}
  {s s' : Worker Message} {a : Action Message} {σ : Session Message} {turn : Turn Message}
  {n : Nat}

/-- A turn that starts shows its input and its messages. -/
def began? : Obs Message → Option (Nat × Text × List Message)
  | .started turn input messages => some (turn, input, messages)
  | _ => none

/-- The turns started, each with its input and the messages it starts from. -/
def began (tr : List (Obs Message)) : List (Nat × Text × List Message) := tr.filterMap began?

/-- What a run shows beside its actions. -/
def observations (log : Log Message) : List (Obs Message) := log.filterMap Sum.getRight?

theorem observations_step (log : Log Message) (a : Action Message) (os : List (Obs Message)) :
    observations (log ++ .inl a :: os.map .inr) = observations log ++ os := by
  rw [observations, List.filterMap_append, Machine.filterMap_inr]
  rfl

theorem began_map_approver (os : List RemoteApprover.Obs) :
    began (os.map Obs.approver : List (Obs Message)) = [] := by
  rw [began, List.filterMap_map, List.filterMap_eq_nil_iff]
  intro o _
  rfl

theorem began_append : began (tr ++ os) = began tr ++ began os := List.filterMap_append

/-- What is held, as the daemon would see it. -/
def heldEvents (held : Option Held) : List WorkerEvent := held.toList.map Held.event

/-! ## The relation -/

/-- The turn said what its own agent emitted, as far as it was taken. The
approval requests it said were asked, each in the turn it names: calls of
`approve` share one channel, and that one of them is not left over from an
earlier turn is for the tasks to see to, which no run here assumes. If the
turn has a result, that is what its task returned, with nothing left of its
events. -/
structure Kept (tr : List (Obs Message)) (task : AgentTask Message) (n : Nat)
    (turn : Turn Message) : Prop where
  agent : emitted n tr = cores turn.items ++ task.events
  asked : ∀ held ∈ turn.said, ∀ notice, held.item = .approval notice →
    .asked held.turn notice ∈ tr
  result : ∀ messages, turn.result = some messages →
    .joined n (.ok messages) ∈ tr ∧ task.events = [] ∧ task.closed = true

/-- The session has the worker's inputs, turns and messages. -/
structure Recorded (setup : Setup Message) (log : Log Message) (s : Worker Message)
    (σ : Session Message) : Prop where
  inputs : received log = σ.inputs
  waiting : s.queuedInputs = σ.waiting
  count : s.nextTurn = σ.turns.length
  messages : s.messages = σ.history setup
  starts : began (observations log) = σ.starts setup
  turns : ∀ n turn, σ.turns[n]? = some turn → Kept (observations log) (s.tasks n) n turn

/-- How far the session is, by where the coordinator is: what has been said
but not sent is the held event, which is lost if it is still held past the
last send. -/
def Stands (setup : Setup Message) (sent : List WorkerEvent) (σ : Session Message)
    (pending : Option Held) (active : Option Nat) : Pc → Prop
  | .running => σ.ending = none ∧ σ.At active ∧
      σ.spoken = sent ++ heldEvents (keepOrdinary pending) ∧
      (active = none → keepOrdinary pending = pending)
  | .joining turn => σ.ending = none ∧ σ.At (some turn) ∧ σ.spoken = sent
  | .cancelling _ => σ.ending = none ∧ σ.At none ∧
      σ.spoken = sent ++ heldEvents (keepOrdinary pending)
  | .stopping _ => σ.ending = some .stopped ∧ σ.spoken = sent ++ heldEvents (keepOrdinary pending)
  | .terminal event _ => σ.farewell setup = [event] ∧ σ.spoken = sent ++ heldEvents pending
  | .aborting _ | .closing _ | .returned _ => σ.ending ≠ none ∧ sent <+: σ.speech setup

/-- The session has what the run has so far, and is as far as the coordinator. -/
structure Explains (setup : Setup Message) (log : Log Message) (s : Worker Message)
    (σ : Session Message) : Prop where
  recorded : Recorded setup log s σ
  stands : Stands setup (events (observations log)) σ s.pendingEvent s.active s.pc

theorem Explains.start (setup : Setup Message) : Explains setup [] (new setup) .new where
  recorded := ⟨rfl, rfl, rfl, rfl, rfl, fun _ _ h => by cases h⟩
  stands := ⟨rfl, rfl, rfl, fun _ => rfl⟩

/-! ## What a step leaves to the session -/

/-- No task's events are taken, added to or cut off. -/
def Untouched (s s' : Worker Message) : Prop :=
  ∀ n, (s'.tasks n).events = (s.tasks n).events ∧ (s'.tasks n).closed = (s.tasks n).closed

theorem Untouched.refl (s : Worker Message) : Untouched s s := fun _ => ⟨rfl, rfl⟩

theorem Untouched.update {n : Nat} {task : AgentTask Message}
    (htasks : s'.tasks = Function.update s.tasks n task)
    (hevents : task.events = (s.tasks n).events) (hclosed : task.closed = (s.tasks n).closed) :
    Untouched s s' := by
  intro i
  rw [htasks]
  exact ⟨update_task AgentTask.events hevents rfl, update_task AgentTask.closed hclosed rfl⟩

theorem Untouched.abort (n : Nat) (htasks : s'.tasks = s.abortTask n) : Untouched s s' :=
  .update htasks rfl rfl

/-- Leaving the loop aborts a task, and an aborted task keeps its events. -/
theorem Untouched.breakLoop (s : Worker Message) (result : Ended) :
    Untouched s (s.breakLoop result) := by
  cases hactive : s.active with
  | none =>
      intro n
      simp [Worker.breakLoop, hactive]
  | some turn =>
      refine .abort turn ?_
      rw [Worker.breakLoop, hactive]

/-- Joining a turn takes nothing from any channel. -/
theorem Untouched.join (s : Worker Message) (outcome : Outcome Message) :
    Untouched s (s.join outcome) := by
  cases outcome with
  | panicked error => exact Untouched.breakLoop s _
  | cancelled error => exact Untouched.breakLoop s _
  | _ => exact fun _ => ⟨rfl, rfl⟩

/-- What was asked stays asked. -/
theorem Kept.asked_append {task : AgentTask Message} (h : Kept tr task n turn)
    (os : List (Obs Message)) : ∀ held ∈ turn.said, ∀ notice, held.item = .approval notice →
      .asked held.turn notice ∈ tr ++ os :=
  fun held hheld notice hitem => List.mem_append_left _ (h.asked held hheld notice hitem)

/-- The turn keeps what it said as long as its agent emits nothing and nothing is
taken. -/
theorem Kept.frame {task task' : AgentTask Message} (h : Kept tr task n turn)
    (hemitted : emitted n os = []) (hevents : task'.events = task.events)
    (hclosed : task'.closed = task.closed) : Kept (tr ++ os) task' n turn where
  agent := by rw [emitted_append, hemitted, List.append_nil, hevents, h.agent]
  asked := h.asked_append os
  result := by
    intro messages hresult
    rw [hevents, hclosed]
    exact (h.result messages hresult).imp_left (List.mem_append_left _)

namespace Recorded

/-- The session stays as it is. -/
theorem frame (h : Recorded setup log s σ) (ha : ∀ text, a ≠ .command (.input text))
    (hqueue : s'.queuedInputs = s.queuedInputs) (hnext : s'.nextTurn = s.nextTurn)
    (hmessages : s'.messages = s.messages) (hbegan : began os = [])
    (hturns : ∀ n turn, Kept (observations log) (s.tasks n) n turn →
      Kept (observations log ++ os) (s'.tasks n) n turn) :
    Recorded setup (log ++ .inl a :: os.map .inr) s' σ where
  inputs := by rw [received_other ha, h.inputs]
  waiting := by rw [hqueue, h.waiting]
  count := by rw [hnext, h.count]
  messages := by rw [hmessages, h.messages]
  starts := by rw [observations_step, began_append, hbegan, List.append_nil, h.starts]
  turns := by
    intro n turn hturn
    rw [observations_step]
    exact hturns n turn (h.turns n turn hturn)

/-- The session stays as it is, and so do the tasks. -/
theorem untouched (h : Recorded setup log s σ) (ha : ∀ text, a ≠ .command (.input text))
    (hqueue : s'.queuedInputs = s.queuedInputs) (hnext : s'.nextTurn = s.nextTurn)
    (hmessages : s'.messages = s.messages) (hbegan : began os = [])
    (hemitted : ∀ n, emitted n os = []) (huntouched : Untouched s s') :
    Recorded setup (log ++ .inl a :: os.map .inr) s' σ :=
  h.frame ha hqueue hnext hmessages hbegan fun n _ hkept =>
    hkept.frame (hemitted n) (huntouched n).1 (huntouched n).2

/-- A change to the current turn that keeps its input. -/
theorem current (h : Recorded setup log s σ) (hcurrent : σ.current = some turn)
    {log' : Log Message} {σ' : Session Message} {turn' : Turn Message}
    (hreceived : received log' = received log)
    (hbegan : began (observations log') = began (observations log))
    (hqueue : s'.queuedInputs = s.queuedInputs) (hnext : s'.nextTurn = s.nextTurn)
    (hturns : σ'.turns = σ.past ++ [turn']) (hinput : turn'.input = turn.input)
    (hwaiting : σ'.waiting = σ.waiting) (hending : σ'.ending = σ.ending)
    (hmessages : s'.messages = σ'.history setup)
    (hpast : ∀ n turn, n < σ.past.length → Kept (observations log) (s.tasks n) n turn →
      Kept (observations log') (s'.tasks n) n turn)
    (hkept : Kept (observations log) (s.tasks σ.past.length) σ.past.length turn →
      Kept (observations log') (s'.tasks σ.past.length) σ.past.length turn') :
    Recorded setup log' s' σ' := by
  have hbefore := Session.turns_of_current hcurrent
  obtain ⟨hfirst, hlast⟩ := Turn.forall_concat.mp (hbefore ▸ h.turns)
  refine ⟨?_, ?_, ?_, hmessages, ?_, ?_⟩
  · rw [hreceived, h.inputs, Session.inputs, Session.inputs, Session.refused, Session.refused,
      hturns, hbefore, hwaiting, hending, List.map_append, List.map_append, List.map_singleton,
      List.map_singleton, hinput]
  · rw [hqueue, hwaiting, h.waiting]
  · rw [hnext, h.count, hbefore, hturns, List.length_append, List.length_append]
    rfl
  · rw [hbegan, h.starts, Session.starts, Session.starts, hbefore, hturns, Turn.starts_concat,
      Turn.starts_concat, hinput]
  · rw [hturns]
    refine Turn.forall_concat.mpr ⟨fun n turn hturn => ?_, hkept hlast⟩
    obtain ⟨hlt, -⟩ := List.getElem?_eq_some_iff.mp hturn
    exact hpast n turn hlt (hfirst n turn hturn)

/-- A turn that is over leaves its result. -/
theorem finish (h : Recorded setup log s σ) (hcurrent : σ.current = some turn)
    (result : Option (List Message)) (hmessages : s.messages = (σ.finish turn result).history setup)
    (hresult : ∀ messages, result = some messages → .joined σ.past.length (.ok messages) ∈
      observations log ∧ (s.tasks σ.past.length).events = [] ∧
      (s.tasks σ.past.length).closed = true) : Recorded setup log s (σ.finish turn result) :=
  h.current hcurrent rfl rfl rfl rfl (Session.turns_finish result) rfl rfl rfl hmessages
    (fun _ _ _ hkept => hkept) fun hkept => ⟨hkept.agent, hkept.asked, hresult⟩

/-- A turn that is cut short leaves the messages as they were. -/
theorem cut (h : Recorded setup log s σ) (hcurrent : σ.current = some turn) :
    Recorded setup log s (σ.finish turn none) := by
  refine h.finish hcurrent none ?_ (fun _ hresult => by cases hresult)
  rw [h.messages, Session.history, Session.history, Session.finish, Turn.history_concat]
  rfl

/-- An approval request is said. -/
theorem say (h : Recorded setup log s σ) (hcurrent : σ.current = some turn) {held : Held}
    (hcore : held.item.core? = none) (hasked : ∀ notice, held.item = .approval notice →
      .asked held.turn notice ∈ observations log) : Recorded setup log s (σ.say turn held) := by
  refine h.current hcurrent rfl rfl rfl rfl (Session.turns_say held) rfl rfl rfl h.messages
    (fun _ _ _ hkept => hkept) fun hkept => ⟨?_, ?_, hkept.result⟩
  · have hnone : cores [held.item] = [] := List.filterMap_cons_none hcore
    rw [hkept.agent, Turn.items, Turn.items, List.map_append, cores, cores, List.filterMap_append]
    exact congrArg (· ++ _) ((List.append_nil _).symm.trans (congrArg (_ ++ ·) hnone.symm))
  · intro held' hheld' notice hitem
    rcases List.mem_append.mp hheld' with hold | hnew
    · exact hkept.asked held' hold notice hitem
    · obtain rfl := List.mem_singleton.mp hnew
      exact hasked notice hitem

/-- A session that refuses nothing ends. -/
theorem close (h : Recorded setup log s σ) (hopen : σ.ending = none) {ending : Ending}
    (hending : (σ.close ending).refused = []) : Recorded setup log s (σ.close ending) where
  inputs := by
    have hnone : σ.refused = [] := by rw [Session.refused, hopen]
    rw [h.inputs, Session.inputs, Session.inputs, hnone, hending]
    rfl
  waiting := h.waiting
  count := h.count
  messages := h.messages
  starts := h.starts
  turns := h.turns

/-- A session that goes on has refused nothing. -/
theorem refused_of_open (hopen : σ.ending = none) : σ.refused = [] := by
  rw [Session.refused, hopen]

theorem received_input (log : Log Message) (text : Text) :
    received (log ++ [.inl (.command (.input text))]) = received log ++ [text] :=
  List.filterMap_append

theorem observations_input (log : Log Message) (text : Text) :
    observations (log ++ [.inl (.command (.input text))]) = observations log :=
  List.filterMap_append.trans (List.append_nil _)

/-- An input that is taken waits in the session too. -/
theorem accept (h : Recorded setup log s σ) (hopen : σ.ending = none) {text : Text}
    (hroom : σ.waiting.length < maxQueuedInputs) :
    Recorded setup (log ++ [.inl (.command (.input text))]) (s.queueInput text)
      (σ.accept text hroom) where
  inputs := by
    rw [received_input, h.inputs, Session.inputs, Session.inputs, refused_of_open hopen,
      refused_of_open (σ := σ.accept text hroom) hopen, List.append_nil, List.append_nil,
      List.append_assoc]
    rfl
  waiting := congrArg (· ++ [text]) h.waiting
  count := h.count
  messages := h.messages
  starts := by
    rw [observations_input]
    exact h.starts
  turns := by
    rw [observations_input]
    exact h.turns

/-- The input that finds the queue full ends the session, and is the one refused. -/
theorem refuse (h : Recorded setup log s σ) (hopen : σ.ending = none) (text : Text) :
    Recorded setup (log ++ [.inl (.command (.input text))])
      (s.sendOrdered (.crash queueLimitExceeded) (.error queueLimitExceeded))
      (σ.close (.overflowed text)) where
  inputs := by
    rw [received_input, h.inputs, Session.inputs, Session.inputs, refused_of_open hopen,
      List.append_nil]
    rfl
  waiting := h.waiting
  count := h.count
  messages := h.messages
  starts := by
    rw [observations_input]
    exact h.starts
  turns := by
    rw [observations_input]
    exact h.turns

/-- The next input is taken for a turn of its own, which has said nothing. -/
theorem begin (h : Recorded setup log s σ) (hstarted : Started (observations log) s)
    (hopen : σ.ending = none) (hidle : σ.current = none) {text : Text} {rest : List Text}
    (hwaiting : σ.waiting = text :: rest) :
    Recorded setup (log ++ .inl .startTurn :: (s.startTurn setup text rest).2.map .inr)
      (s.startTurn setup text rest).1 (σ.begin text rest hwaiting) where
  inputs := by
    rw [received_other (fun _ h => by cases h), h.inputs, Session.inputs, Session.inputs,
      Session.turns_begin hidle, refused_of_open hopen,
      refused_of_open (σ := σ.begin text rest hwaiting) hopen, hwaiting, List.map_append]
    simp [Session.begin]
  waiting := rfl
  count := by
    rw [Session.turns_begin hidle, List.length_append, ← h.count]
    rfl
  messages := h.messages
  starts := by
    have hbegan : began (s.startTurn setup text rest).2 =
      [(s.nextTurn, text, s.messages ++ [setup.user text])] := rfl
    rw [observations_step, began_append, hbegan, h.starts, h.count, h.messages, Session.starts,
      Session.starts, Session.turns_begin hidle, Turn.starts_concat, Nat.zero_add,
      Session.turns_of_idle hidle]
    rfl
  turns := by
    rw [observations_step, Session.turns_begin hidle]
    refine Turn.forall_concat.mpr ⟨fun n turn hturn => ?_, ?_⟩
    · -- the earlier turns have other tasks
      obtain ⟨hlt, -⟩ := List.getElem?_eq_some_iff.mp hturn
      have hne : n ≠ s.nextTurn := by
        rw [h.count]
        exact Nat.ne_of_lt hlt
      have htask : (s.startTurn setup text rest).1.tasks n = s.tasks n :=
        Function.update_of_ne hne _ _
      rw [htask]
      exact (h.turns n turn hturn).frame rfl rfl rfl
    · have htask : (s.startTurn setup text rest).1.tasks s.nextTurn = ⟨[], false, none, false⟩ :=
        task_self _ _ _
      rw [← h.count, htask]
      refine ⟨?_, (by simp), (by simp)⟩
      rw [emitted_append, emitted, hstarted.program _ (Nat.le_refl _)]
      rfl

/-- The next event of the current turn is taken, and said. -/
theorem hold (h : Recorded setup log s σ) (hcurrent : σ.current = some turn)
    {handle : Text} {event : AgentEvent} {rest : List AgentEvent} {held : Held}
    (hitem : held.item = .core event)
    (hevents : (s.tasks σ.past.length).events = event :: rest)
    (ha : ∀ text, a ≠ .command (.input text)) :
    Recorded setup
      (log ++ .inl a :: (s.holdEvent handle σ.past.length event rest).2.map .inr)
      (s.holdEvent handle σ.past.length event rest).1 (σ.say turn held) := by
  have hbegan : began (s.holdEvent handle σ.past.length event rest).2 = [] := by
    rw [began, List.filterMap_eq_nil_iff]
    intro o ho
    obtain ⟨handle, -, rfl⟩ := List.mem_map.mp ho
    rfl
  have hemitted : ∀ n, emitted n (s.holdEvent handle σ.past.length event rest).2 = [] :=
    fun n => congrArg (List.filterMap Item.core?) (program_map_drew n _)
  refine h.current hcurrent (received_other ha) ?_ rfl rfl (Session.turns_say held) rfl rfl rfl
    h.messages (fun n turn hlt hkept => ?_) fun hkept => ?_
  · rw [observations_step, began_append, hbegan, List.append_nil]
  · have htask : (s.holdEvent handle σ.past.length event rest).1.tasks n = s.tasks n :=
      Function.update_of_ne (Nat.ne_of_lt hlt) _ _
    rw [observations_step, htask]
    exact hkept.frame (hemitted n) rfl rfl
  · have htask : ((s.holdEvent handle σ.past.length event rest).1.tasks σ.past.length).events =
        rest := congrArg AgentTask.events (task_self s.tasks σ.past.length _)
    rw [observations_step]
    refine ⟨?_, ?_, ?_⟩
    · rw [emitted_append, hemitted, List.append_nil, htask, hkept.agent, hevents]
      simp [Turn.items, cores, hitem, Item.core?]
    · intro held' hheld' notice hnotice
      rcases List.mem_append.mp hheld' with hold | hnew
      · exact hkept.asked_append _ held' hold notice hnotice
      · obtain rfl := List.mem_singleton.mp hnew
        rw [hitem] at hnotice
        cases hnotice
    · intro messages hmessages
      obtain ⟨-, hempty, -⟩ := hkept.result messages hmessages
      rw [hevents] at hempty
      cases hempty

/-- The turn at work is cut short, if there is one, and the session ends. -/
theorem cutShort (h : Recorded setup log s σ) (hopen : σ.ending = none) :
    ∃ σ', Relation.ReflTransGen Session.Step σ σ' ∧ Recorded setup log s σ' ∧
      σ'.ending = none ∧ σ'.current = none ∧ σ'.spoken = σ.spoken := by
  cases hcurrent : σ.current with
  | none => exact ⟨σ, .refl, h, hopen, hcurrent, rfl⟩
  | some turn =>
      exact ⟨σ.finish turn none, .single (.finish none hopen hcurrent), h.cut hcurrent, hopen, rfl,
        Session.spoken_finish hcurrent none⟩

/-- A session that ends for a reason other than an input cuts its turn short first.
-/
theorem ended (h : Recorded setup log s σ) (hopen : σ.ending = none) (ending : Ending)
    (hending : ∀ refused, ending ≠ .overflowed refused) :
    ∃ σ', Relation.ReflTransGen Session.Step σ σ' ∧ Recorded setup log s σ' ∧
      σ'.ending = some ending ∧ σ'.spoken = σ.spoken := by
  obtain ⟨σ', hreach, hrecorded, hopen', hidle, hspoken⟩ := h.cutShort hopen
  have hrefused : (σ'.close ending).refused = [] := by
    cases ending with
    | overflowed refused => exact absurd rfl (hending refused)
    | _ => rfl
  exact ⟨σ'.close ending,
    hreach.tail (.close ending hopen' hidle fun refused heq => absurd heq (hending refused)),
    hrecorded.close hopen' hrefused, rfl, hspoken⟩

end Recorded

/-! ## The steps -/

/-- The session goes on to explain the run after one more step. -/
def Answers (setup : Setup Message) (log : Log Message) (a : Action Message)
    (os : List (Obs Message)) (s' : Worker Message) (σ : Session Message) : Prop :=
  ∃ σ', Relation.ReflTransGen Session.Step σ σ' ∧
    Explains setup (log ++ .inl a :: os.map .inr) s' σ'

/-- Past the loop it is enough that the session ended and said what was sent. -/
theorem Stands.out {sent more : List WorkerEvent} (hending : σ.ending ≠ none)
    (hspoken : σ.spoken = sent ++ more) {pending : Option Held} {active : Option Nat} {pc : Pc}
    (hout : pc.isOut = true) : Stands setup sent σ pending active pc := by
  cases pc with
  | aborting | closing | returned => exact ⟨hending, Session.prefix_speech hspoken⟩
  | _ => cases hout

/-- In the loop the session has said what was sent and what is held. -/
theorem Stands.loop {sent : List WorkerEvent} {pending : Option Held} {active : Option Nat}
    {pc : Pc} (hpc : pc = .running) (hopen : σ.ending = none) (hat : σ.At active)
    (hspoken : σ.spoken = sent ++ heldEvents (keepOrdinary pending))
    (hordinary : active = none → keepOrdinary pending = pending) :
    Stands setup sent σ pending active pc := by
  subst hpc
  exact ⟨hopen, hat, hspoken, hordinary⟩

/-- The session moves, and nothing is sent. -/
theorem Answers.silent {σ' : Session Message} (hreach : Relation.ReflTransGen Session.Step σ σ')
    (hrecorded : Recorded setup (log ++ .inl a :: os.map .inr) s' σ') (hos : events os = [])
    (hstands : Stands setup (events (observations log)) σ' s'.pendingEvent s'.active s'.pc) :
    Answers setup log a os s' σ := by
  refine ⟨σ', hreach, hrecorded, ?_⟩
  rw [observations_step, events_append, hos, List.append_nil]
  exact hstands

namespace Explains

/-- In the loop the session is open and at the active turn. -/
theorem running (h : Explains setup log s σ) (hpc : s.pc = .running) :
    σ.ending = none ∧ σ.At s.active ∧
      σ.spoken = events (observations log) ++ heldEvents (keepOrdinary s.pendingEvent) ∧
      (s.active = none → keepOrdinary s.pendingEvent = s.pendingEvent) := by
  have hstands := h.stands
  rw [hpc] at hstands
  exact hstands

/-- On the way to its own event the worker owes what is held, and then the farewell.
-/
theorem terminal (h : Explains setup log s σ) {event : WorkerEvent} {result : Ended}
    (hpc : s.pc = .terminal event result) : σ.farewell setup = [event] ∧
      σ.spoken = events (observations log) ++ heldEvents s.pendingEvent := by
  have hstands := h.stands
  rw [hpc] at hstands
  exact hstands

/-- Past the loop the session is over, and what was sent is the start of its speech.
-/
theorem out (h : Explains setup log s σ) (hout : s.pc.isOut = true) :
    σ.ending ≠ none ∧ events (observations log) <+: σ.speech setup := by
  have hstands := h.stands
  cases hpc : s.pc with
  | aborting | closing | returned =>
      rw [hpc] at hstands
      exact hstands
  | _ =>
      rw [hpc] at hout
      cases hout

/-- While a turn is joined nothing of it is held. -/
theorem joining (h : Explains setup log s σ) (hpc : s.pc = .joining n) :
    σ.ending = none ∧ σ.At (some n) ∧ σ.spoken = events (observations log) := by
  have hstands := h.stands
  rw [hpc] at hstands
  exact hstands

/-- A cancelled turn is over in the session before its task is. -/
theorem cancelling (h : Explains setup log s σ) (hpc : s.pc = .cancelling n) :
    σ.ending = none ∧ σ.current = none ∧
      σ.spoken = events (observations log) ++ heldEvents (keepOrdinary s.pendingEvent) := by
  have hstands := h.stands
  rw [hpc] at hstands
  exact hstands

/-- So is a stopped session. -/
theorem stopping (h : Explains setup log s σ) (hpc : s.pc = .stopping n) :
    σ.ending = some .stopped ∧
      σ.spoken = events (observations log) ++ heldEvents (keepOrdinary s.pendingEvent) := by
  have hstands := h.stands
  rw [hpc] at hstands
  exact hstands

/-- Nothing of the coordinator changes that the session could tell. -/
theorem beside (h : Explains setup log s σ)
    (hrecorded : Recorded setup (log ++ .inl a :: os.map .inr) s' σ) (hos : events os = [])
    (hpending : s'.pendingEvent = s.pendingEvent) (hactive : s'.active = s.active)
    (hpc : s'.pc = s.pc) : Answers setup log a os s' σ := by
  refine .silent .refl hrecorded hos ?_
  rw [hpending, hactive, hpc]
  exact h.stands

/-- What is held is said, if it was not. -/
theorem flush (h : Explains setup log s σ) (hrequested : Requested (observations log) s)
    (hpc : s.pc = .running) : ∃ σ', Relation.ReflTransGen Session.Step σ σ' ∧
      Recorded setup log s σ' ∧ σ'.ending = none ∧ σ'.At s.active ∧
      σ'.spoken = events (observations log) ++ heldEvents s.pendingEvent := by
  obtain ⟨hopen, hat, hspoken, hordinary⟩ := h.running hpc
  have hstay : keepOrdinary s.pendingEvent = s.pendingEvent →
      ∃ σ', Relation.ReflTransGen Session.Step σ σ' ∧ Recorded setup log s σ' ∧
        σ'.ending = none ∧ σ'.At s.active ∧
        σ'.spoken = events (observations log) ++ heldEvents s.pendingEvent := by
    intro hkept
    rw [hkept] at hspoken
    exact ⟨σ, .refl, h.recorded, hopen, hat, hspoken⟩
  cases hpending : s.pendingEvent with
  | none =>
      rw [hpending] at hstay
      exact hstay rfl
  | some held =>
      rw [hpending] at hstay hspoken hordinary
      rcases keepOrdinary_cases held with hkept | ⟨hdropped, hcore⟩
      · exact hstay hkept
      · -- an approval request is held for the turn at work
        cases hactive : s.active with
        | none =>
            rw [hdropped] at hordinary
            cases hordinary hactive
        | some n =>
            rw [hactive] at hat
            obtain ⟨hn, turn, hcurrent⟩ := hat
            refine ⟨σ.say turn held, .single (.say hopen hcurrent),
              h.recorded.say hcurrent hcore (fun notice hitem =>
                hrequested.held held notice hpending hitem), hopen, ⟨hn, _, rfl⟩, ?_⟩
            rw [Session.spoken_say hcurrent, hspoken, hdropped]
            simp [heldEvents]

/-- An input is taken, or the queue is full. -/
theorem input (h : Explains setup log s σ) (hrequested : Requested (observations log) s)
    {text : Text} (hstep : step setup s (.command (.input text)) = some (s', os)) :
    Answers setup log (.command (.input text)) os s' σ := by
  obtain ⟨hpc, rfl, hcases⟩ := step_input hstep
  obtain ⟨hopen, hat, hspoken, hordinary⟩ := h.running hpc
  rcases hcases with ⟨hfull, rfl⟩ | ⟨hne, rfl⟩
  · obtain ⟨σ₁, hreach₁, hrecorded₁, hopen₁, -, hspoken₁⟩ := h.flush hrequested hpc
    obtain ⟨σ₂, hreach₂, hrecorded₂, hopen₂, hidle₂, hspoken₂⟩ := hrecorded₁.cutShort hopen₁
    have hreach := (hreach₁.trans hreach₂).tail
      (.close (.overflowed text) hopen₂ hidle₂ fun _ _ => by rw [← hrecorded₂.waiting, hfull])
    exact .silent hreach (hrecorded₂.refuse hopen₂ text) rfl ⟨rfl, hspoken₂.trans hspoken₁⟩
  · have hroom : σ.waiting.length < maxQueuedInputs := by
      refine Nat.lt_of_le_of_ne σ.bound ?_
      rwa [← h.recorded.waiting]
    exact .silent (.single (.accept hopen hroom)) (h.recorded.accept hopen hroom) rfl
      (.loop hpc hopen hat hspoken hordinary)

/-- The worker and the session start the same turn from the same messages. -/
theorem startTurn (h : Explains setup log s σ) (hstarted : Started (observations log) s)
    (hactive : s.active = none) (hstep : step setup s .startTurn = some (s', os)) :
    Answers setup log .startTurn os s' σ := by
  obtain ⟨hpc, text, rest, hqueued, rfl, rfl⟩ := step_startTurn hstep
  obtain ⟨hopen, hat, hspoken, -⟩ := h.running hpc
  rw [hactive] at hat
  have hwaiting : σ.waiting = text :: rest := by rw [← h.recorded.waiting, hqueued]
  refine .silent (.single (.begin hopen hat hwaiting))
    (h.recorded.begin hstarted hopen hat hwaiting) rfl (.loop hpc hopen ⟨?_, _, rfl⟩ ?_ ?_)
  · rw [h.recorded.count, Session.turns_of_idle hat]
    rfl
  · rw [Session.spoken_begin hat]
    exact hspoken
  · intro hnone
    cases hnone

/-- An event counts as said when it is taken. -/
theorem hold (h : Explains setup log s σ) (hpc : s.pc = .running) {handle : Text}
    {event : AgentEvent} {rest : List AgentEvent} (hactive : s.active = some n)
    (hpending : s.pendingEvent = none) (hevents : (s.tasks n).events = event :: rest)
    (ha : ∀ text, a ≠ .command (.input text)) :
    Answers setup log a (s.holdEvent handle n event rest).2 (s.holdEvent handle n event rest).1
      σ := by
  obtain ⟨hopen, hat, hspoken, -⟩ := h.running hpc
  rw [hactive] at hat
  obtain ⟨rfl, turn, hcurrent⟩ := hat
  obtain ⟨held, hheld, hitem⟩ : ∃ held : Held,
      (s.holdEvent handle σ.past.length event rest).1.pendingEvent = some held ∧
      held.item = .core event := ⟨_, rfl, rfl⟩
  have hkept : keepOrdinary (some held) = some held := by
    rcases keepOrdinary_cases held with hkept | ⟨-, hcore⟩
    · exact hkept
    · rw [hitem] at hcore
      cases hcore
  refine .silent (.single (.say hopen hcurrent)) (h.recorded.hold hcurrent hitem hevents ha)
    (events_map_drew _) (.loop hpc hopen ?_ ?_ fun _ => ?_)
  · show Session.At _ s.active
    rw [hactive]
    exact ⟨rfl, _, rfl⟩
  · rw [Session.spoken_say hcurrent, hspoken, hpending, hheld, hkept]
    simp [heldEvents, keepOrdinary]
  · rw [hheld, hkept]

/-- A request that is held is not said yet. -/
theorem holdNotice (h : Explains setup log s σ) (hpc : s.pc = .running)
    (hactive : s.active = some n) (hpending : s.pendingEvent = none) {handle : Text}
    {barrier : Nat × ApprovalNotice} :
    Answers setup log (.barrier handle) [] (s.holdNotice barrier) σ := by
  obtain ⟨hopen, hat, hspoken, -⟩ := h.running hpc
  rw [hpending] at hspoken
  refine .silent .refl
    (h.recorded.untouched (by simp) rfl rfl rfl rfl (fun _ => rfl) (fun _ => ⟨rfl, rfl⟩)) rfl
    (.loop hpc hopen hat hspoken fun hnone => ?_)
  cases hactive.symm.trans hnone

/-- The loop is left without a word. -/
theorem leave (h : Explains setup log s σ) (hpc : s.pc = .running) (result : Ended)
    (ha : ∀ text, a ≠ .command (.input text)) : Answers setup log a [] (s.breakLoop result) σ := by
  obtain ⟨hopen, -, hspoken, -⟩ := h.running hpc
  obtain ⟨σ', hreach, hrecorded, hending, hspoken'⟩ :=
    h.recorded.ended hopen .dropped (by simp)
  refine .silent hreach
    (hrecorded.untouched ha rfl rfl rfl rfl (fun _ => rfl) (.breakLoop s result)) rfl
    (.out ?_ (hspoken'.trans hspoken) rfl)
  rw [hending]
  simp

/-- `Cancel` cuts the turn short; what is held of it has been said. -/
theorem cancel (h : Explains setup log s σ) (hpc : s.pc = .running) (n : Nat) :
    Answers setup log (.command .cancel) []
      { s with pc := .cancelling n, active := none, tasks := s.abortTask n } σ := by
  obtain ⟨hopen, -, hspoken, -⟩ := h.running hpc
  obtain ⟨σ', hreach, hrecorded, hopen', hidle, hspoken'⟩ := h.recorded.cutShort hopen
  exact .silent hreach
    (hrecorded.untouched (by simp) rfl rfl rfl rfl (fun _ => rfl) (.abort n rfl)) rfl
    ⟨hopen', hidle, hspoken'.trans hspoken⟩

/-- `Stop` cuts the turn short and ends the session. -/
theorem stop (h : Explains setup log s σ) (hpc : s.pc = .running) (n : Nat) :
    Answers setup log (.command .stop) []
      { s with pc := .stopping n, active := none, tasks := s.abortTask n } σ := by
  obtain ⟨hopen, -, hspoken, -⟩ := h.running hpc
  obtain ⟨σ', hreach, hrecorded, hending, hspoken'⟩ :=
    h.recorded.ended hopen .stopped (by simp)
  exact .silent hreach
    (hrecorded.untouched (by simp) rfl rfl rfl rfl (fun _ => rfl) (.abort n rfl)) rfl
    ⟨hending, hspoken'.trans hspoken⟩

/-- Without a turn only the farewell is left to say. -/
theorem stopInactive (h : Explains setup log s σ) (hpc : s.pc = .running)
    (hactive : s.active = none) : Answers setup log (.command .stop) []
      (s.sendOrdered (doneEvent s.messages.length) (.ok ())) σ := by
  obtain ⟨hopen, -, hspoken, hordinary⟩ := h.running hpc
  rw [hordinary hactive] at hspoken
  obtain ⟨σ', hreach, hrecorded, hending, hspoken'⟩ :=
    h.recorded.ended hopen .stopped (by simp)
  refine .silent hreach
    (hrecorded.untouched (by simp) rfl rfl rfl rfl (fun _ => rfl) (.refl s)) rfl
    ⟨?_, hspoken'.trans hspoken⟩
  rw [Session.farewell, hending, hrecorded.messages]

/-- The agent's channel is empty and closed, so the turn has said everything. -/
theorem turnClosed (h : Explains setup log s σ) (hpc : s.pc = .running)
    (hactive : s.active = some n) (hpending : s.pendingEvent = none) {handle : Text} :
    Answers setup log (.takeEvent handle) [] { s with pc := .joining n, active := none } σ := by
  obtain ⟨hopen, hat, hspoken, -⟩ := h.running hpc
  rw [hactive] at hat
  rw [hpending] at hspoken
  exact .silent .refl
    (h.recorded.untouched (by simp) rfl rfl rfl rfl (fun _ => rfl) (fun _ => ⟨rfl, rfl⟩)) rfl
    ⟨hopen, hat, hspoken.trans (List.append_nil _)⟩

/-- What is sent was said, at the latest now. -/
theorem enqueue (h : Explains setup log s σ) (hrequested : Requested (observations log) s)
    (hpc : s.pc = .running) {held : Held} (hpending : s.pendingEvent = some held) :
    Answers setup log .reserve (s.enqueue held).2 (s.enqueue held).1 σ := by
  obtain ⟨σ', hreach, hrecorded, hopen, hat, hspoken⟩ := h.flush hrequested hpc
  rw [hpending] at hspoken
  refine ⟨σ', hreach,
    hrecorded.untouched (by simp) rfl rfl rfl rfl (fun _ => rfl) (fun _ => ⟨rfl, rfl⟩), ?_⟩
  rw [observations_step, events_append]
  exact .loop hpc hopen hat (hspoken.trans (List.append_nil _).symm) fun _ => rfl

/-- The cancelled task has ended in time, and the session goes on. -/
theorem cancelCompleted (h : Explains setup log s σ) (hpc : s.pc = .cancelling n)
    (hactive : s.active = none) : Answers setup log .cancelCompleted [.approver .cleared]
      { s.cancelled with pc := .running } σ := by
  obtain ⟨hopen, hidle, hspoken⟩ := h.cancelling hpc
  refine .silent .refl
    (h.recorded.untouched (by simp) rfl rfl rfl rfl (fun _ => rfl) (fun _ => ⟨rfl, rfl⟩)) rfl
    (.loop rfl hopen ?_ ?_ ?_)
  · show Session.At _ s.active
    rw [hactive]
    exact hidle
  · exact hspoken.trans (congrArg (_ ++ heldEvents ·) (keepOrdinary_twice _).symm)
  · exact fun _ => keepOrdinary_twice _

/-- It has not, and the session ends with a crash. -/
theorem cancelDeadline (h : Explains setup log s σ) (hpc : s.pc = .cancelling n) :
    Answers setup log .cancelDeadline [.approver .cleared]
      (s.cancelled.sendOrdered (.crash cancellationDeadlineExceeded)
        (.error cancellationDeadlineExceeded)) σ := by
  obtain ⟨hopen, -, hspoken⟩ := h.cancelling hpc
  obtain ⟨σ', hreach, hrecorded, hending, hspoken'⟩ :=
    h.recorded.ended hopen (.crashed cancellationDeadlineExceeded) (by simp)
  refine .silent hreach
    (hrecorded.untouched (by simp) rfl rfl rfl rfl (fun _ => rfl) (fun _ => ⟨rfl, rfl⟩)) rfl
    ⟨?_, hspoken'.trans hspoken⟩
  rw [Session.farewell, hending]

/-- The stopped session says its farewell. -/
theorem stopDone (h : Explains setup log s σ) (hpc : s.pc = .stopping n) :
    Answers setup log .stopDone [.approver .cleared]
      ({ s.release with pendingEvent := keepOrdinary s.pendingEvent }.sendOrdered
        (doneEvent s.messages.length) (.ok ())) σ := by
  obtain ⟨hending, hspoken⟩ := h.stopping hpc
  refine .silent .refl
    (h.recorded.untouched (by simp) rfl rfl rfl rfl (fun _ => rfl) (fun _ => ⟨rfl, rfl⟩)) rfl
    ⟨?_, hspoken⟩
  rw [Session.farewell, hending, h.recorded.messages]

/-- The turn leaves its result as the history of the next one. -/
theorem joinOk (h : Explains setup log s σ) (hcourse : Course s) (hpc : s.pc = .joining n)
    (messages : List Message) : Answers setup log .joinTurn [.joined n (.ok messages)]
      (s.join (.ok messages)) σ := by
  obtain ⟨hactive, hpending, -, hevents, hclosed, -⟩ := hcourse.joining n hpc
  obtain ⟨hopen, ⟨rfl, turn, hcurrent⟩, hspoken⟩ := h.joining hpc
  refine .silent (.single (.finish (some messages) hopen hcurrent)) ?_ rfl
    (.loop rfl hopen ?_ ?_ ?_)
  · refine h.recorded.current hcurrent (received_other (by simp)) ?_ rfl rfl
      (Session.turns_finish _) rfl rfl rfl ?_ (fun n turn _ hkept => ?_) fun hkept => ?_
    · rw [observations_step, began_append]
      exact List.append_nil _
    · rw [Session.history, Session.finish, Turn.history_concat]
      rfl
    · rw [observations_step]
      exact hkept.frame rfl rfl rfl
    · rw [observations_step]
      have hjoined : Kept (observations log ++ [.joined σ.past.length (.ok messages)])
        (s.tasks σ.past.length) σ.past.length turn := hkept.frame rfl rfl rfl
      obtain ⟨hagent, hasked, -⟩ := hjoined
      refine ⟨hagent, hasked, fun messages' hresult => ?_⟩
      obtain rfl := Option.some.inj hresult
      exact ⟨List.mem_append_right _ (List.mem_singleton_self _), hevents, hclosed⟩
  · show Session.At _ s.active
    rw [hactive]
    rfl
  · show _ = _ ++ heldEvents (keepOrdinary s.pendingEvent)
    rw [Session.spoken_finish hcurrent, hspoken, hpending]
    exact (List.append_nil _).symm
  · intro _
    show keepOrdinary s.pendingEvent = s.pendingEvent
    rw [hpending]
    rfl

/-- A turn that failed ends the session with its error. -/
theorem joinFailed (h : Explains setup log s σ) (hpc : s.pc = .joining n) (error : Text) :
    Answers setup log .joinTurn [.joined n (.failed error)] (s.join (.failed error)) σ := by
  obtain ⟨hopen, -, hspoken⟩ := h.joining hpc
  obtain ⟨σ', hreach, hrecorded, hending, hspoken'⟩ :=
    h.recorded.ended hopen (.crashed error) (by simp)
  refine .silent hreach
    (hrecorded.untouched (by simp) rfl rfl rfl rfl (fun _ => rfl) (.join s _)) rfl ⟨?_, ?_⟩
  · rw [Session.farewell, hending]
  · exact (hspoken'.trans hspoken).trans (List.append_nil _).symm

/-- A task that panicked or was cancelled ends the session without a word. -/
theorem joinDropped (h : Explains setup log s σ) (hpc : s.pc = .joining n)
    {outcome : Outcome Message} {error : Text}
    (hjoin : s.join outcome = s.breakLoop (.error error)) :
    Answers setup log .joinTurn [.joined n outcome] (s.join outcome) σ := by
  obtain ⟨hopen, -, hspoken⟩ := h.joining hpc
  obtain ⟨σ', hreach, hrecorded, hending, hspoken'⟩ :=
    h.recorded.ended hopen .dropped (by simp)
  rw [hjoin]
  refine .silent hreach
    (hrecorded.untouched (by simp) rfl rfl rfl rfl (fun _ => rfl) (.breakLoop s _)) rfl
    (.out ?_ ((hspoken'.trans hspoken).trans (List.append_nil _).symm) rfl)
  rw [hending]
  simp

/-- What is held goes out before the farewell. -/
theorem terminalHeld (h : Explains setup log s σ) {event : WorkerEvent} {result : Ended}
    (hpc : s.pc = .terminal event result) {held : Held} (hpending : s.pendingEvent = some held) :
    Answers setup log .terminalSend (s.enqueue held).2 (s.enqueue held).1 σ := by
  obtain ⟨hfarewell, hspoken⟩ := h.terminal hpc
  refine ⟨σ, .refl,
    h.recorded.untouched (by simp) rfl rfl rfl rfl (fun _ => rfl) (fun _ => ⟨rfl, rfl⟩), ?_⟩
  rw [observations_step, events_append]
  show Stands setup _ σ none s.active s.pc
  rw [hpc]
  refine ⟨hfarewell, ?_⟩
  rw [hspoken, hpending]
  exact (List.append_nil _).symm

theorem ending_of_farewell {event : WorkerEvent} (hfarewell : σ.farewell setup = [event]) :
    σ.ending ≠ none := by
  intro hnone
  rw [Session.farewell, hnone] at hfarewell
  cases hfarewell

/-- The farewell is the last event of the speech. -/
theorem terminalEvent (h : Explains setup log s σ) {event : WorkerEvent} {result : Ended}
    (hpc : s.pc = .terminal event result) (hpending : s.pendingEvent = none) :
    Answers setup log .terminalSend [.terminal event]
      { s.breakLoop result with outbound := s.outbound ++ [event] } σ := by
  obtain ⟨hfarewell, hspoken⟩ := h.terminal hpc
  refine ⟨σ, .refl, h.recorded.untouched (by simp) rfl rfl rfl rfl (fun _ => rfl) ?_, ?_⟩
  · exact fun n => Untouched.breakLoop s result n
  · rw [observations_step, events_append]
    refine ⟨ending_of_farewell hfarewell, ?_⟩
    have hnone : events (observations log) ++ heldEvents none = events (observations log) :=
      List.append_nil _
    rw [Session.speech, hfarewell, hspoken, hpending, hnone]
    exact List.prefix_rfl

/-- Past the deadline the rest of the speech stays unsaid. -/
theorem terminalGiveUp (h : Explains setup log s σ) {event : WorkerEvent} {result : Ended}
    (hpc : s.pc = .terminal event result) :
    Answers setup log .terminalGiveUp [] (s.breakLoop result) σ := by
  obtain ⟨hfarewell, hspoken⟩ := h.terminal hpc
  exact .silent .refl
    (h.recorded.untouched (by simp) rfl rfl rfl rfl (fun _ => rfl) (.breakLoop s result)) rfl
    (.out (ending_of_farewell hfarewell) hspoken rfl)

/-- Past the loop nothing is sent. -/
theorem afterwards (h : Explains setup log s σ)
    (hrecorded : Recorded setup (log ++ .inl a :: os.map .inr) s' σ) (hos : events os = [])
    (hout : s.pc.isOut = true) (hout' : s'.pc.isOut = true) : Answers setup log a os s' σ := by
  obtain ⟨hending, more, hmore⟩ := h.out hout
  refine .silent .refl hrecorded hos ?_
  cases hpc : s'.pc with
  | aborting | closing | returned => exact ⟨hending, more, hmore⟩
  | _ =>
      rw [hpc] at hout'
      cases hout'

/-- What an agent emits waits in its channel, and the session does not notice. -/
theorem emit (h : Explains setup log s σ) {event : AgentEvent}
    (hopen : (s.tasks n).closed = false) :
    Answers setup log (.emit n event) [.emitted n event] { s with
      tasks := Function.update s.tasks n
        { s.tasks n with events := (s.tasks n).events ++ [event] } } σ := by
  refine h.beside (h.recorded.frame (by simp) rfl rfl rfl rfl fun i turn hkept => ?_) rfl rfl rfl
    rfl
  by_cases hi : i = n
  · subst hi
    dsimp only
    rw [Function.update_self]
    refine ⟨?_, hkept.asked_append _, ?_⟩
    · rw [emitted_append, hkept.agent, List.append_assoc]
      simp [emitted, program, programItem?, Item.core?]
    · -- a turn that has left its messages emits no more
      intro messages hresult
      obtain ⟨-, -, hclosed⟩ := hkept.result messages hresult
      cases hclosed.symm.trans hopen
  · dsimp only
    rw [Function.update_of_ne hi]
    refine hkept.frame ?_ rfl rfl
    simp [emitted, program, programItem?, Ne.symm hi]

/-- Neither does it notice that the channel closes. -/
theorem closeEvents (h : Explains setup log s σ) (n : Nat) :
    Answers setup log (.closeEvents n) [] { s with
      tasks := Function.update s.tasks n { s.tasks n with closed := true } } σ := by
  refine h.beside (h.recorded.frame (by simp) rfl rfl rfl rfl fun i turn hkept => ?_) rfl rfl rfl
    rfl
  by_cases hi : i = n
  · subst hi
    dsimp only
    rw [Function.update_self]
    refine ⟨?_, hkept.asked_append [], fun messages hresult => ?_⟩
    · rw [List.append_nil]
      exact hkept.agent
    · obtain ⟨hjoined, hevents, -⟩ := hkept.result messages hresult
      exact ⟨List.mem_append_left _ hjoined, hevents, rfl⟩
  · dsimp only
    rw [Function.update_of_ne hi]
    exact hkept.frame rfl rfl rfl

theorem untouched (h : Explains setup log s σ) (ha : ∀ text, a ≠ .command (.input text))
    (hqueue : s'.queuedInputs = s.queuedInputs) (hnext : s'.nextTurn = s.nextTurn)
    (hmessages : s'.messages = s.messages) (hbegan : began os = [])
    (hemitted : ∀ n, emitted n os = []) (huntouched : Untouched s s') (hos : events os = [])
    (hpending : s'.pendingEvent = s.pendingEvent) (hactive : s'.active = s.active)
    (hpc : s'.pc = s.pc) : Answers setup log a os s' σ :=
  h.beside (h.recorded.untouched ha hqueue hnext hmessages hbegan hemitted huntouched) hos hpending
    hactive hpc

/-- Every step is answered. -/
theorem step (h : Explains setup log s σ) (hstarted : Started (observations log) s)
    (hcourse : Course s) (hrequested : Requested (observations log) s)
    (hstep : Worker.step setup s a = some (s', os)) : Answers setup log a os s' σ := by
  cases step_cases hstep with
  | queueInput hpc => exact h.input hrequested hstep
  | overflow hpc => exact h.input hrequested hstep
  | cancel hpc hactive => exact h.cancel hpc _
  | stop hpc hactive => exact h.stop hpc _
  | stopInactive hpc hactive => exact h.stopInactive hpc hactive
  | commandsClosed hpc => exact h.leave hpc _ (by simp)
  | commandError hpc => exact h.leave hpc _ (by simp)
  | writerGone hpc hpending hwriter => exact h.leave hpc _ (by simp)
  | startTurn hpc hactive hpending => exact h.startTurn hstarted hactive hstep
  | holdEvent hpc hactive hpending hevents ha =>
      refine h.hold hpc hactive hpending hevents fun text heq => ?_
      rcases ha with rfl | rfl <;> cases heq
  | turnClosed hpc hactive hpending hbarrier hevents hclosed =>
      exact h.turnClosed hpc hactive hpending
  | enqueue hpc hpending hsends => exact h.enqueue hrequested hpc hpending
  | holdNotice hpc hactive hpending hbarrier hevents hopen =>
      exact h.holdNotice hpc hactive hpending
  | cancelCompleted hpc houtcome =>
      exact h.cancelCompleted hpc (hcourse.cancelling _ hpc).1
  | cancelDeadline hpc => exact h.cancelDeadline hpc
  | stopDone hpc => exact h.stopDone hpc
  | @joinTurn turn outcome hpc houtcome =>
      cases outcome with
      | ok messages => exact h.joinOk hcourse hpc messages
      | failed error => exact h.joinFailed hpc error
      | panicked error => exact h.joinDropped hpc rfl
      | cancelled error => exact h.joinDropped hpc rfl
  | terminalHeld hpc hpending hsends => exact h.terminalHeld hpc hpending
  | terminalEvent hpc hpending hsends => exact h.terminalEvent hpc hpending
  | terminalGiveUp hpc => exact h.terminalGiveUp hpc
  | abortDone hpc =>
      exact h.afterwards (h.recorded.untouched (by simp) rfl rfl rfl rfl (fun _ => rfl)
        (fun _ => ⟨rfl, rfl⟩)) rfl (by rw [hpc]; rfl) rfl
  | closed hpc hwriter =>
      exact h.afterwards (h.recorded.untouched (by simp) rfl rfl rfl rfl (fun _ => rfl)
        (fun _ => ⟨rfl, rfl⟩)) rfl (by rw [hpc]; rfl) rfl
  | closeDeadline hpc =>
      exact h.afterwards (h.recorded.untouched (by simp) rfl rfl rfl rfl (fun _ => rfl)
        (fun _ => ⟨rfl, rfl⟩)) rfl (by rw [hpc]; rfl) rfl
  | emit hturn hopen => exact h.emit hopen
  | closeEvents hturn => exact h.closeEvents _
  | finish hturn hrunning =>
      exact h.untouched (by simp) rfl rfl rfl rfl (fun _ => rfl) (.update rfl rfl rfl) rfl rfl rfl
        rfl
  | @approve callId decision hpc =>
      exact h.untouched (by simp) rfl rfl rfl (began_map_approver _) (emitted_map_approver _)
        (.refl s) (events_map_approver _) rfl rfl rfl
  | call hallows hstep =>
      exact h.untouched (by simp) rfl rfl rfl (began_map_approver _) (emitted_map_approver _)
        (.refl s) (events_map_approver _) rfl rfl rfl
  | name hcall hstage =>
      exact h.untouched (by simp) rfl rfl rfl rfl (emitted_asked _ _ _) (.refl s) rfl rfl rfl rfl
  | _ => exact h.untouched (by simp) rfl rfl rfl rfl (fun _ => rfl) (.refl s) rfl rfl rfl rfl

end Explains

/-- Every run is explained by a session that came about step by step. -/
theorem run_explained {C : Log Message → Worker Message → Action Message → Prop}
    (h : (machine setup).logged.Run C log s) :
    ∃ σ : Session Message, σ.Reached ∧ Explains setup log s σ := by
  refine h.simulate (Explains.start setup) ?_
  intro log os s s' a σ hrun hexplains _ hstep
  obtain ⟨os', hplain, rfl⟩ := Machine.logged_step hstep
  have hworker : (machine setup).Run (fun _ _ _ => True) (observations log) s :=
    hrun.of_logged fun _ _ _ _ => True.intro
  exact hexplains.step (run_started hworker) (run_course hworker) (run_requested hworker) hplain

/-- Wherever the coordinator is, what was sent has been said. -/
theorem Explains.sent_le (h : Explains setup log s σ) :
    events (observations log) <+: σ.speech setup := by
  cases hpc : s.pc with
  | running =>
      obtain ⟨-, -, hspoken, -⟩ := h.running hpc
      exact Session.prefix_speech hspoken
  | joining turn =>
      obtain ⟨-, -, hspoken⟩ := h.joining hpc
      exact Session.prefix_speech (hspoken.trans (List.append_nil _).symm)
  | cancelling turn => exact Session.prefix_speech (h.cancelling hpc).2.2
  | stopping turn => exact Session.prefix_speech (h.stopping hpc).2
  | terminal event result => exact Session.prefix_speech (h.terminal hpc).2
  | aborting | closing | returned => exact (h.out (by rw [hpc]; rfl)).2

end Worker

end PeakcodeDaemon
