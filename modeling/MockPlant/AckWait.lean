import MockPlant.Loops
import MockPlant.MethodCalls
import MockPlant.Pacing

/-!
The wait for an ack by the clock. A call reads the ack block until its number is there or a
second has gone by, with a sleep after every read. However slow the reads are it makes no
more than fifty, and what it comes to is what the handshake makes of the reads that the
deadline lets through.
-/
namespace MockPlant.AckWait
open MockPlant.Python MockPlant.Contract MockPlant.Plc MockPlant.ScanCommands MockPlant.MethodCalls MockPlant.Handshake
open MockPlant.Loops MockPlant.Pacing

/-! ### By the clock -/

def ackTimeout : ℚ := 1
def ackPollPeriod : ℚ := 2 / 100

/-- What a wait meets: the reading of the clock that its deadline is worked out from, the
    readings before its reads of the ack block, and the answers to these. Between two of the
    readings lies a sleep, which `asyncio.sleep` does not cut short. -/
structure Surroundings where
  sent : ℚ
  time : ℕ → ℚ
  answers : ℕ → Except LinkFailure (List ℕ)
  started : sent ≤ time 0
  rested : ∀ i, time i + ackPollPeriod ≤ time (i + 1)

def Surroundings.deadline (env : Surroundings) : ℚ := env.sent + ackTimeout

/-- The reads made so far, and the result that the wait has returned. -/
structure Waiting where
  reads : ℕ := 0
  result : Option AckResult := none

section
variable (ack : RegisterBlock) (seq : ℕ) (env : Surroundings)

/-- One turn of the loop in `invoke`. -/
def turn (w : Waiting) : Except InvokeError (ForInStep Waiting) := do
  if env.time w.reads < env.deadline then
    let words ← (env.answers w.reads).mapError .link
    let ackSeq ← (field ack words "ack_seq").mapError .python
    if ackSeq = seq then
      let ackResult ← (field ack words "ack_result").mapError .python
      match AckResult.ofNat? ackResult with
      | some r => return .done ⟨w.reads + 1,some r⟩
      | none => throw (.python .valueError)
    return .yield ⟨w.reads + 1,none⟩
  else throw .timeout

/-- What a wait has come to, if it has not been cut short. -/
def ended : Except InvokeError (ForInStep Waiting) → Option (Except InvokeError AckResult)
  | .error e => some (.error e)
  | .ok (.done w) => w.result.map .ok
  | .ok (.yield _) => none

/-- The wait, cut after a number of turns if it goes on that long. -/
def wait (turns : ℕ) : Option (Except InvokeError AckResult) := ended (loop (turn ack seq env) turns {})

end

section
variable (contract : Contract) (issued : Option ℕ) (code : CmdCode) (arg0 : ℤ) (first : Except LinkFailure (List ℕ))
  (write : Except LinkFailure Unit) (env : Surroundings) (turns : ℕ)

/-- The invoke from its write on. -/
def sendBy (seq : ℕ) : Option Answer :=
  match lookup (contract.commandBlock.layout.mapM (commandFields code arg0 seq)) with
  | .error e => some ⟨issued,none,.error (.python e)⟩
  | .ok words =>
    match write with
    | .error failure => some ⟨issued,some words,.error (.link failure)⟩
    | .ok () => (wait contract.ackBlock seq env turns).map (fun result => ⟨some seq,some words,result⟩)

/-- The invoke by the clock, if its wait has not been cut short. -/
def invokeBy : Option Answer :=
  match first with
  | .error failure => some ⟨issued,none,.error (.link failure)⟩
  | .ok words =>
    match field contract.ackBlock words "ack_seq" with
    | .error e => some ⟨issued,none,.error (.python e)⟩
    | .ok current =>
      match issued with
      | none => sendBy contract none code arg0 write env turns (nextSeq current)
      | some expected =>
        if current ≠ expected then some ⟨some current,none,.error (.contended current expected)⟩
        else sendBy contract (some expected) code arg0 write env turns (nextSeq current)

end

/-! ### The reads before the deadline -/

/-- The most reads that a wait makes. -/
def mostReads : ℕ := 50

section
variable (env : Surroundings)

/-- How many readings come before the deadline. -/
def Surroundings.early : ℕ := (List.range mostReads).findIdx (fun i => env.deadline ≤ env.time i)

/-- The answers to the reads that the deadline lets through. -/
def Surroundings.polls : List (Except LinkFailure (List ℕ)) := (List.range env.early).map env.answers

theorem deadline_reached : env.deadline ≤ env.time mostReads := by
  have spaced : Spaced env.time ackPollPeriod mostReads := fun i _ => env.rested i
  refine spaced.reaches ?_
  have second : ((mostReads : ℕ) : ℚ) * ackPollPeriod = ackTimeout := by norm_num [mostReads,ackPollPeriod,ackTimeout]
  rw [second,Surroundings.deadline]
  exact add_le_add_left env.started _

theorem early_le : env.early ≤ mostReads := by
  have bound : env.early ≤ (List.range mostReads).length := List.findIdx_le_length
  rwa [List.length_range] at bound

theorem early_lt {i : ℕ} (before : i < env.early) : env.time i < env.deadline := by
  have notYet := List.not_of_lt_findIdx before
  simpa using notYet

/-- The first reading that comes too late. -/
theorem late : env.deadline ≤ env.time env.early := by
  rcases (early_le env).lt_or_eq with found | none
  · have bound : env.early < (List.range mostReads).length := by rwa [List.length_range]
    have here : ∃ reading, (List.range mostReads)[env.early]? = some reading ∧ env.deadline ≤ env.time reading := by
      refine ⟨_,List.getElem?_eq_getElem bound,?_⟩
      exact of_decide_eq_true (@List.findIdx_getElem _ (fun i => decide (env.deadline ≤ env.time i)) _ bound)
    obtain ⟨reading,there,reached⟩ := here
    obtain rfl := (List.getElem?_range found).symm.trans there |> Option.some.inj
    exact reached
  · rw [none]
    exact deadline_reached env

theorem polls_length : env.polls.length ≤ mostReads := by
  rw [Surroundings.polls,List.length_map,List.length_range]
  exact early_le env

variable (ack : RegisterBlock) (seq : ℕ)

/-- From a number of reads on, the loop makes of the reads that are left what the handshake makes of them. -/
theorem loop_awaitAck {reads rest turns : ℕ} (left : env.early = reads + rest) (enough : rest < turns) :
    ended (loop (turn ack seq env) turns ⟨reads,none⟩) =
      some (awaitAck ack seq ((List.range' reads rest).map env.answers)) := by
  obtain ⟨turns,rfl⟩ := Nat.exists_eq_add_one.mpr (Nat.zero_lt_of_lt enough)
  induction rest generalizing reads turns with
  | zero =>
    have past : ¬ env.time reads < env.deadline := by
      rw [← Nat.add_zero reads,← left]
      exact not_lt.mpr (late env)
    simp [loop,turn,past,ended,awaitAck,throw,throwThe,MonadExceptOf.throw]
  | succ rest ih =>
    obtain ⟨turns,rfl⟩ := Nat.exists_eq_add_one.mpr (by omega : 0 < turns)
    have early : env.time reads < env.deadline := early_lt env (by omega)
    have later := @ih (reads + 1) (by omega) turns (by omega)
    rw [List.range'_succ,List.map_cons]
    cases answer : env.answers reads with
    | error failure => simp [loop,turn,early,answer,ended,awaitAck,Except.mapError,bind,Except.bind]
    | ok words =>
      cases number : field ack words "ack_seq" with
      | error e => simp [loop,turn,early,answer,number,ended,awaitAck,Except.mapError,bind,Except.bind]
      | ok ackSeq =>
        by_cases same : ackSeq = seq
        · cases result : field ack words "ack_result" with
          | error e =>
            simp [loop,turn,early,answer,number,same,result,ended,awaitAck,Except.mapError,bind,Except.bind]
          | ok ackResult =>
            cases known : AckResult.ofNat? ackResult <;>
              simp [loop,turn,early,answer,number,same,result,known,ended,awaitAck,Except.mapError,bind,Except.bind,pure,
                Except.pure,throw,throwThe,MonadExceptOf.throw]
        · have turned : turn ack seq env ⟨reads,none⟩ = .ok (.yield ⟨reads + 1,none⟩) := by
            simp [turn,early,answer,number,same,Except.mapError,bind,Except.bind,pure,Except.pure]
          rw [loop_yield turned,later]
          simp [awaitAck,number,same]

/-- A wait is over within fifty-one turns. -/
theorem wait_awaitAck {turns : ℕ} (enough : mostReads < turns) :
    wait ack seq env turns = some (awaitAck ack seq env.polls) := by
  have left : env.early = 0 + env.early := (Nat.zero_add _).symm
  rw [wait,loop_awaitAck env ack seq left ((early_le env).trans_lt enough),Surroundings.polls,List.range_eq_range']

end

/-! ### Calls -/

section
variable (contract : Contract) (issued : Option ℕ) (code : CmdCode) (arg0 : ℤ) (first : Except LinkFailure (List ℕ))
  (write : Except LinkFailure Unit) (env : Surroundings) {turns : ℕ} (enough : mostReads < turns)
include enough

/-- A call by the clock is a call whose polls are the reads that the deadline lets through. -/
theorem invokeBy_invoke : invokeBy contract issued code arg0 first write env turns =
    some (invoke contract issued code arg0 ⟨first,write,env.polls⟩) := by
  have sent (issued : Option ℕ) (seq : ℕ) : sendBy contract issued code arg0 write env turns seq =
      some (send contract issued code arg0 ⟨first,write,env.polls⟩ seq) := by
    unfold sendBy send
    cases lookup (contract.commandBlock.layout.mapM (commandFields code arg0 seq)) with
    | error e => rfl
    | ok words =>
      cases write with
      | error failure => rfl
      | ok => simp [wait_awaitAck env contract.ackBlock seq enough]
  unfold invokeBy invoke
  cases first with
  | error failure => rfl
  | ok words =>
    cases number : field contract.ackBlock words "ack_seq" with
    | error e => simp [number]
    | ok current =>
      cases issued with
      | none => simp [number,sent]
      | some expected =>
        by_cases own : current = expected <;> simp [number,own,sent]

omit enough in
/-- The handshake times out on its number exactly when every poll finds another one. -/
theorem awaitAck_timeout {ack : RegisterBlock} {seq : ℕ} {polls : List (Except LinkFailure (List ℕ))} :
    awaitAck ack seq polls = .error .timeout ↔ ∀ poll ∈ polls, Other ack seq poll := by
  constructor
  · intro timedOut
    induction polls with
    | nil => simp
    | cons poll rest ih =>
      cases poll with
      | error failure => cases timedOut
      | ok words =>
        cases number : field ack words "ack_seq" with
        | error e => simp [awaitAck,number] at timedOut
        | ok ackSeq =>
          by_cases same : ackSeq = seq
          · cases result : field ack words "ack_result" with
            | error e => simp [awaitAck,number,same,result] at timedOut
            | ok ackResult => cases known : AckResult.ofNat? ackResult <;> simp [awaitAck,number,same,result,known] at timedOut
          · simp only [awaitAck,number,if_neg same] at timedOut
            exact List.forall_mem_cons.mpr ⟨⟨words,ackSeq,rfl,number,same⟩,ih timedOut⟩
  · intro others
    have passed := awaitAck_others others []
    rwa [List.append_nil] at passed

omit enough in
theorem send_timeout {link : Link} {seq : ℕ} (timedOut : (send contract issued code arg0 link seq).result = .error .timeout) :
    (send contract issued code arg0 link seq).issued = some seq ∧ ∀ poll ∈ link.polls, Other contract.ackBlock seq poll := by
  unfold send at timedOut ⊢
  cases filled : lookup (contract.commandBlock.layout.mapM (commandFields code arg0 seq)) with
  | error e => simp [filled] at timedOut
  | ok words =>
    cases wrote : link.write with
    | error failure => simp [filled,wrote] at timedOut
    | ok =>
      simp only [filled,wrote] at timedOut ⊢
      exact ⟨trivial,awaitAck_timeout.mp timedOut⟩

/-- However the clock runs and whatever the link does, a call comes to an answer within fifty reads of
    the ack block, all begun within a second of its block. It is the handshake's answer to these
    reads, and it is a timeout only when the second has gone by and every one of them has found
    another number than the one that the call has issued. -/
theorem call_bounded : ∃ answer, invokeBy contract issued code arg0 first write env turns = some answer ∧
    answer = invoke contract issued code arg0 ⟨first,write,env.polls⟩ ∧ env.polls.length ≤ 50 ∧
    (∀ i < env.polls.length, env.time i < env.sent + ackTimeout) ∧
    (answer.result = .error .timeout → env.sent + ackTimeout ≤ env.time env.polls.length ∧
      ∃ seq, answer.issued = some seq ∧ ∀ poll ∈ env.polls, Other contract.ackBlock seq poll) := by
  have length : env.polls.length = env.early := by rw [Surroundings.polls,List.length_map,List.length_range]
  refine ⟨_,invokeBy_invoke contract issued code arg0 first write env enough,rfl,polls_length env,fun i before => ?_,?_⟩
  · exact early_lt env (length ▸ before)
  · intro timedOut
    refine ⟨length ▸ late env,?_⟩
    unfold invoke at timedOut ⊢
    cases first with
    | error failure => cases timedOut
    | ok words =>
      cases number : field contract.ackBlock words "ack_seq" with
      | error e => simp [number] at timedOut
      | ok current =>
        cases issued with
        | none =>
          simp only [number] at timedOut ⊢
          exact ⟨_,send_timeout contract none code arg0 timedOut⟩
        | some expected =>
          by_cases own : current = expected
          · simp only [number,own,ne_eq,not_true,if_false] at timedOut ⊢
            exact ⟨_,send_timeout contract (some expected) code arg0 timedOut⟩
          · simp [number,own] at timedOut

end

/-- A PLC that does not answer in time, by a clock of the shipped period. -/
def silent : Surroundings where
  sent := 0
  time i := i * ackPollPeriod
  answers _ := .ok [7,2]
  started := by norm_num
  rested i := by
    push_cast
    linarith

theorem call_bounded_silent : ∃ answer, invokeBy Shipped.tags (some 7) .start 0 (.ok [7,2]) (.ok ()) silent 51 = some answer ∧
    answer.result = .error .timeout ∧ silent.polls.length = 50 ∧ answer.issued = some 8 := by
  obtain ⟨answer,called,same,_,_,late⟩ :=
    call_bounded Shipped.tags (some 7) .start 0 (.ok [7,2]) (.ok ()) silent (by decide : mostReads < 51)
  have timedOut : (invoke Shipped.tags (some 7) .start 0 ⟨.ok [7,2],.ok (),silent.polls⟩).result = .error .timeout := by
    decide +kernel
  exact ⟨answer,called,same ▸ timedOut,by decide +kernel,by rw [same]; decide +kernel⟩

end MockPlant.AckWait
