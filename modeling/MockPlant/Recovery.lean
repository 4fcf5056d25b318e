import MockPlant.ExactlyOnce

/-!
Detection of another master, and recovery from it. The other master numbers its
commands from the acknowledgement modulo 65536, the gateway from 1 to 65535; after
`k` foreign commands, each executed, the acknowledged number is `k` further on
modulo 65536, so fewer than 65536 of them never come back to the number that the
gateway issued. The refused invoke reads and does nothing else, and leaves the
gateway at the acknowledged number.
-/
namespace MockPlant.Recovery
open MockPlant.Contract MockPlant.Plc MockPlant.ScanCommands MockPlant.Handshake MockPlant.Masters MockPlant.Mailbox
open MockPlant.Attribution MockPlant.ExactlyOnce MockPlant.Runs

/-! ### While the gateway rests -/

/-- A step of another master or of the PLC, where a foreign command is numbered only
    when the one before it is executed. -/
def Foreign (v : View) : Action → Prop
  | .rogueRead _ => v.rogues = [] ∧ v.regs.seq = v.regs.ackSeq
  | .rogueWrite _ | .scan _ | .write _ _ _ => True
  | _ => False

instance (v : View) : ∀ a : Action, Decidable (Foreign v a)
  | .rogueRead _ => inferInstanceAs (Decidable (_ ∧ _))
  | .rogueWrite _ | .scan _ | .write _ _ _ => inferInstanceAs (Decidable True)
  | .call _ _ | .readAck _ | .send _ | .sendReturns _ | .poll _ | .fail _ | .timeout _ =>
    inferInstanceAs (Decidable False)

/-- A step of the PLC, or of a master that keeps off the blocks. -/
def Rests : Action → Prop
  | .scan _ | .write _ _ _ => True
  | _ => False

def foreignCode : Event → Option ℕ
  | .wrote .rogue code _ => some code
  | _ => none

/-- The codes of the commands that the other master has written. -/
def foreignCodes (trace : List Event) : List ℕ := trace.filterMap foreignCode

theorem foreignCodes_concat (trace : List Event) (event : Event) :
    foreignCodes (trace ++ [event]) = foreignCodes trace ++ (foreignCode event).toList := by
  cases found : foreignCode event <;> simp [foreignCodes,found]

theorem rogueSeq_ne (current : ℕ) : rogueSeq current ≠ current := by
  unfold rogueSeq
  omega

/-- The foreign commands are executed, short of one that is still in the block; after
    so many executions the acknowledged number is so much further on, and the foreign
    command under way is numbered next. -/
structure Driven (v₀ : View) (trace : List Event) (v : View) : Prop where
  calls : v.calls = v₀.calls
  issued : v.issued = v₀.issued
  executed : foreignCodes trace = (executions trace).map (·.code) ++ (owed v.regs).map (·.1)
  counted : v.regs.ackSeq % 65536 = (v₀.regs.ackSeq + (executions trace).length) % 65536
  atMostOne : v.rogues.length ≤ 1
  next : v.regs.seq = v.regs.ackSeq ∧ (∀ entry ∈ v.rogues, entry.2 = rogueSeq v.regs.ackSeq) ∨
    v.rogues = [] ∧ v.regs.seq = rogueSeq v.regs.ackSeq

section
variable {v₀ v : View} {earlier : List Event} (driven : Driven v₀ earlier v)
include driven

/-- The one numbered command is the one written, and it goes to a block that is executed. -/
theorem Driven.rogueWrite {k : ℕ} {code : CmdCode} {seq : ℕ} (found : v.rogues[k]? = some (code,seq)) :
    Driven v₀ (earlier ++ [.wrote .rogue code.toNat seq])
      ({ v with rogues := v.rogues.eraseIdx k }.writeBlock code seq) := by
  have bound := (List.getElem?_eq_some_iff.mp found).1
  have atMostOne := driven.atMostOne
  have single : v.rogues.length = 1 := by omega
  obtain ⟨entry,only⟩ := List.length_eq_one_iff.mp single
  obtain rfl : k = 0 := by omega
  obtain ⟨settled,numbered⟩ : v.regs.seq = v.regs.ackSeq ∧ seq = rogueSeq v.regs.ackSeq := by
    rcases driven.next with ⟨settled,numbered⟩ | ⟨none,_⟩
    · exact ⟨settled,numbered (code,seq) (List.mem_of_getElem? found)⟩
    · simp [none] at single
  have unexecuted : executions (earlier ++ [.wrote .rogue code.toNat seq]) = executions earlier := by
    rw [executions_concat]
    simp [executionOf]
  refine ⟨driven.calls,driven.issued,?_,?_,by simp [View.writeBlock,only],
    .inr ⟨by simp [View.writeBlock,only],numbered⟩⟩
  · rw [foreignCodes_concat,driven.executed,unexecuted]
    simp [foreignCode,owed,settled,View.writeBlock,numbered,rogueSeq_ne]
  · rw [unexecuted]
    exact driven.counted

/-- An execution is of the foreign command in the block, and moves the acknowledged number on by one. -/
theorem Driven.execute (pending : v.regs.seq ≠ v.regs.ackSeq) (result : AckResult) :
    Driven v₀ (earlier ++ [.executed v.regs.code v.regs.seq result])
      { v with regs := { v.regs with ackSeq := v.regs.seq, ackResult := result.toNat } } := by
  obtain ⟨none,numbered⟩ : v.rogues = [] ∧ v.regs.seq = rogueSeq v.regs.ackSeq := by
    rcases driven.next with ⟨settled,_⟩ | written
    · exact absurd settled pending
    · exact written
  refine ⟨driven.calls,driven.issued,?_,?_,driven.atMostOne,.inl ⟨rfl,by simp [none]⟩⟩
  · rw [foreignCodes_concat,driven.executed,executions_concat]
    simp [foreignCode,executionOf,owed,pending]
  · have counted := driven.counted
    rw [executions_concat]
    simp only [executionOf,Option.toList_some,List.length_append,List.length_singleton,numbered,rogueSeq]
    omega

theorem Driven.moves {v' : View} {a : Action} {events : List Event} (foreign : Foreign v a)
    (moves : Moves v a events v') : Driven v₀ (earlier ++ events) v' := by
  cases moves with
  | rogueRead code =>
    obtain ⟨none,settled⟩ := foreign
    rw [List.append_nil]
    exact ⟨driven.calls,driven.issued,driven.executed,driven.counted,by simp [none],.inl ⟨settled,by simp [none]⟩⟩
  | rogueWrite found => exact driven.rogueWrite found
  | execute dt pending result => exact driven.execute pending result
  | idle | write =>
    rw [List.append_nil]
    exact driven
  | call => exact foreign.elim
  | readAck => exact foreign.elim
  | send => exact foreign.elim
  | sendReturns => exact foreign.elim
  | poll => exact foreign.elim
  | fail => exact foreign.elim
  | timeout => exact foreign.elim

/-- Once the foreign commands are executed, their codes are those executed. -/
theorem Driven.codes (settled : v.regs.seq = v.regs.ackSeq) :
    (executions earlier).map (·.code) = foreignCodes earlier := by
  rw [driven.executed]
  simp [owed,settled]

/-- Fewer than 65536 further numbers never come back to the first one. -/
theorem Driven.stranger (some : 1 ≤ (executions earlier).length) (bounded : (executions earlier).length ≤ 65535) :
    v.regs.ackSeq ≠ v₀.regs.ackSeq := by
  have counted := driven.counted
  omega

end

theorem Driven.start {v : View} (rested : v.rogues = []) (settled : v.regs.seq = v.regs.ackSeq) : Driven v [] v where
  calls := rfl
  issued := rfl
  executed := by simp [foreignCodes,executions,owed,settled]
  counted := by simp [executions]
  atMostOne := by simp [rested]
  next := .inl ⟨settled,by simp [rested]⟩

/-- Foreign commands leave the gateway as it is and count the acknowledged number on. -/
theorem run_driven {plant : Plant} {w₀ w : World} {v₀ : View} (ready : Ready plant w₀ v₀) (rested : v₀.rogues = [])
    (settled : v₀.regs.seq = v₀.regs.ackSeq) {actions : List Action} (spares : ∀ a ∈ actions, Spares plant a)
    (foreign : Along (step plant) (Seen plant Foreign) w₀ actions) (reached : run (step plant) w₀ actions = some w) :
    ∃ v, Ready plant w v ∧ Driven v₀ (trace plant w₀ actions) v := by
  exact run_moves (I := fun trace v => Driven v₀ trace v) ready (Driven.start rested settled)
    (fun _ _ _ _ _ driven foreign moves => driven.moves foreign moves) spares foreign reached

/-- A resting plant with its command executed executes nothing. -/
theorem run_rests {plant : Plant} {w u : World} {v : View} (ready : Ready plant w v)
    (settled : v.regs.seq = v.regs.ackSeq) {actions : List Action} (rests : ∀ a ∈ actions, Rests a)
    (spares : ∀ a ∈ actions, Spares plant a) (reached : run (step plant) w actions = some u) :
    Ready plant u v ∧ trace plant w actions = [] := by
  have kept : ∃ v', Ready plant u v' ∧ trace plant w actions = [] ∧ v' = v := by
    refine run_moves (P := fun _ a => Rests a) (I := fun trace v' => trace = [] ∧ v' = v) ready ⟨rfl,rfl⟩ ?_ spares
      (seen_of_forall rests w) reached
    rintro earlier v' a events v'' ⟨rfl,rfl⟩ rests moves
    cases moves with
    | idle | write => exact ⟨rfl,rfl⟩
    | execute _ pending => exact absurd settled pending
    | _ => exact rests.elim
  obtain ⟨_,ready',silent,rfl⟩ := kept
  exact ⟨ready',silent⟩

/-- A resting run goes the same way whatever the masters hold. -/
theorem run_rests_masters {plant : Plant} {w u : World} {actions : List Action} (rests : ∀ a ∈ actions, Rests a)
    (reached : run (step plant) w actions = some u) (issued : Option ℕ) (calls : List Call)
    (rogues : List (CmdCode × ℕ)) :
    run (step plant) { plc := w.plc, issued, calls, rogues } actions =
      some { plc := u.plc, issued, calls, rogues } := by
  induction actions generalizing w with
  | nil =>
    cases reached
    rfl
  | cons a rest ih =>
    obtain ⟨w',moved,later⟩ := Option.bind_eq_some_iff.mp reached
    have stays := rests a (by simp)
    have same : step plant { plc := w.plc, issued, calls, rogues } a =
        some { plc := w'.plc, issued, calls, rogues } := by
      cases a with
      | scan dt =>
        simp only [Masters.step,Option.bind_eq_bind,Option.bind_eq_some_iff,Option.some.injEq] at moved
        obtain ⟨s,scanned,rfl⟩ := moved
        simp [Masters.step,scanned]
      | write funcCode address values =>
        cases moved
        rfl
      | _ => exact stays.elim
    rw [run,same]
    exact ih (fun b member => rests b (List.mem_cons_of_mem _ member)) later

/-! ### The last invoke -/

/-- The masters of a world with one more invoke, at a PLC. -/
def lone (w : World) (s : PlcState) (issued : Option ℕ) (code : CmdCode) (arg0 : ℤ) (phase : Phase) : World :=
  { plc := s, issued, calls := w.calls ++ [{ code, arg0, phase }], rogues := w.rogues }

section
variable (plant : Plant) {w : World} {s s' : PlcState} {issued : Option ℕ} {code : CmdCode} {arg0 : ℤ}

theorem setCall_lone (phase phase' : Phase) :
    (lone w s issued code arg0 phase).setCall w.calls.length { code, arg0, phase } phase' =
      lone w s issued code arg0 phase' := by
  simp [World.setCall,lone]

theorem step_sendReturns_lone (seq : ℕ) :
    Masters.step plant (lone w s issued code arg0 (.writing seq true)) (.sendReturns w.calls.length) =
      some (lone w s (some seq) code arg0 (.polling seq)) := by
  have found : (lone w s issued code arg0 (.writing seq true)).calls[w.calls.length]? =
      some { code, arg0, phase := .writing seq true } := by simp [lone]
  simp only [Masters.step,found,Option.bind_eq_bind,Option.bind_some,setCall_lone]
  rfl

theorem step_scan_lone {dt : ℚ} (scanned : scan plant.plc s dt = .ok s') (phase : Phase) :
    Masters.step plant (lone w s issued code arg0 phase) (.scan dt) = some (lone w s' issued code arg0 phase) := by
  have scanned : scan plant.plc (lone w s issued code arg0 phase).plc dt = .ok s' := scanned
  simp only [Masters.step,scanned,Except.toOption,Option.bind_eq_bind,Option.bind_some]
  rfl

variable (idle : ∀ call ∈ w.calls, ended call.phase)
include idle

/-- When the invokes before it have ended, the last one has the link. -/
theorem callAt_lone (phase : Phase) :
    (lone w s issued code arg0 phase).callAt w.calls.length = some { code, arg0, phase } := by
  have free : (lone w s issued code arg0 phase).linkFree w.calls.length = true := by
    simp only [World.linkFree,lone,List.zipIdx_append,List.all_append,Bool.and_eq_true]
    refine ⟨List.all_eq_true.mpr ?_,by simp⟩
    rintro ⟨call,i⟩ member
    obtain ⟨outcome,phase⟩ := ended_iff.mp (idle call (List.fst_mem_of_mem_zipIdx member))
    simp [Phase.holdsLink,phase]
  rw [World.callAt,if_pos free]
  simp [lone]

theorem step_readAck_lone {current : ℕ} (acked : readAckField plant s "ack_seq" = some current) :
    Masters.step plant (lone w s issued code arg0 .reading) (.readAck w.calls.length) =
      some (lone w s (afterRead issued current).1 code arg0 (afterRead issued current).2) := by
  have acked : readAckField plant (lone w s issued code arg0 .reading).plc "ack_seq" = some current := acked
  simp only [Masters.step,callAt_lone idle,acked,Option.bind_eq_bind,Option.bind_some,setCall_lone]
  rfl

theorem step_send_lone {seq : ℕ}
    (served : writeBlock s plant.plc.contract.commandBlock (commandFields code arg0 seq) = some s') :
    Masters.step plant (lone w s issued code arg0 (.writing seq false)) (.send w.calls.length) =
      some (lone w s' issued code arg0 (.writing seq true)) := by
  have served : writeBlock (lone w s issued code arg0 (.writing seq false)).plc plant.plc.contract.commandBlock
      (commandFields code arg0 seq) = some s' := served
  simp only [Masters.step,callAt_lone idle,served,Option.bind_eq_bind,Option.bind_some,setCall_lone]
  rfl

theorem step_poll_lone {ackSeq ackResult : ℕ} (acked : readAckField plant s "ack_seq" = some ackSeq)
    (result : readAckField plant s "ack_result" = some ackResult) (seq : ℕ) :
    Masters.step plant (lone w s issued code arg0 (.polling seq)) (.poll w.calls.length) =
      some (lone w s issued code arg0 (afterPoll seq ackSeq ackResult)) := by
  have acked : readAckField plant (lone w s issued code arg0 (.polling seq)).plc "ack_seq" = some ackSeq := acked
  have result : readAckField plant (lone w s issued code arg0 (.polling seq)).plc "ack_result" = some ackResult := result
  simp only [Masters.step,callAt_lone idle,acked,result,Option.bind_eq_bind,Option.bind_some,setCall_lone]

end

/-! ### Detection -/

/-- The first read of the next invoke decides it, and the plant goes as it does without it. -/
theorem run_first_read {plant : Plant} {w u : World} {v : View} (ready : Ready plant w v)
    (idle : ∀ call ∈ w.calls, ended call.phase) (settled : v.regs.seq = v.regs.ackSeq) {between : List Action}
    (rests : ∀ a ∈ between, Rests a) (spares : ∀ a ∈ between, Spares plant a)
    (reached : run (step plant) w between = some u) (code : CmdCode) (arg0 : ℤ) :
    let actions := .call code arg0 :: (between ++ [.readAck w.calls.length])
    run (step plant) w actions =
      some (lone w u.plc (afterRead w.issued v.regs.ackSeq).1 code arg0 (afterRead w.issued v.regs.ackSeq).2) ∧
    trace plant w actions = [] := by
  intro actions
  have asked : run (step plant) (lone w w.plc w.issued code arg0 .reading) between =
      some (lone w u.plc w.issued code arg0 .reading) :=
    run_rests_masters rests reached w.issued _ w.rogues
  obtain ⟨ready',_⟩ := run_rests ready settled rests spares reached
  have readyAsked : Ready plant (lone w w.plc w.issued code arg0 .reading) _ := ready.masters w.issued _ w.rogues
  obtain ⟨_,silent⟩ := run_rests readyAsked settled rests spares asked
  have read : Masters.step plant (lone w u.plc w.issued code arg0 .reading) (.readAck w.calls.length) =
      some (lone w u.plc (afterRead w.issued v.regs.ackSeq).1 code arg0 (afterRead w.issued v.regs.ackSeq).2) :=
    step_readAck_lone plant idle (readAckField_regs ready').1
  refine ⟨?_,?_⟩
  · show run (step plant) (lone w w.plc w.issued code arg0 .reading) (between ++ [.readAck w.calls.length]) = _
    rw [run_append,asked]
    simp only [Option.bind_some,run,read]
  · show trace plant (lone w w.plc w.issued code arg0 .reading) (between ++ [.readAck w.calls.length]) = []
    rw [trace_append _ asked,silent,trace_single read]
    rfl

/-- An invoke that finds a number which the gateway did not issue is refused. -/
theorem run_refused {plant : Plant} {w u : World} {v : View} {s : ℕ} (ready : Ready plant w v)
    (idle : ∀ call ∈ w.calls, ended call.phase) (settled : v.regs.seq = v.regs.ackSeq) (issued : w.issued = some s)
    (stranger : v.regs.ackSeq ≠ s) {between : List Action} (rests : ∀ a ∈ between, Rests a)
    (spares : ∀ a ∈ between, Spares plant a) (reached : run (step plant) w between = some u) (code : CmdCode) (arg0 : ℤ) :
    let actions := .call code arg0 :: (between ++ [.readAck w.calls.length])
    run (step plant) w actions =
      some (lone w u.plc (some v.regs.ackSeq) code arg0 (.done (.contended v.regs.ackSeq s))) ∧
    trace plant w actions = [] := by
  have refused : afterRead w.issued v.regs.ackSeq = (some v.regs.ackSeq,.done (.contended v.regs.ackSeq s)) := by
    simp [issued,afterRead,stranger]
  have first := run_first_read ready idle settled rests spares reached code arg0
  rwa [refused] at first

/-! ### Recovery -/

/-- An increasing list of one value has at most one entry. -/
theorem length_le_one_of_pairwise {l : List ℕ} {n : ℕ} (increasing : l.Pairwise (· < ·)) (all : ∀ m ∈ l, m = n) :
    l.length ≤ 1 := by
  match l with
  | [] | [_] => simp
  | a :: b :: rest =>
    have less := (List.pairwise_cons.mp increasing).1 b (by simp)
    have one := all a (by simp)
    have two := all b (by simp)
    omega

/-- The next invoke, with no other master, is executed exactly once and returns its
    own result: when it has ended that is how, and while it has not, it goes on by its
    own steps until the next scan that completes lets a poll end it. -/
structure NextExecuted (plant : Plant) (w : World) : Prop where
  once : ∀ (rest : List Action) (w' : World), (∀ a ∈ rest, Spares plant a) →
    Along (step plant) (Seen plant Reliable) w rest → (∀ i, .fail i ∉ rest) → run (step plant) w rest = some w' →
    w'.calls.length = w.calls.length + 1 → (∀ call ∈ w'.calls, ended call.phase) →
    ∃ code arg0 n r, w'.calls[w.calls.length]? = some ⟨code,arg0,.done (.result r)⟩ ∧
      Served (trace plant w rest) (.call w.calls.length) code.toNat n r ∧
      executions (trace plant w rest) = [⟨code.toNat,n,r⟩]
  returns : ∀ (rest : List Action) (w' : World) (call : Call), (∀ a ∈ rest, Spares plant a) →
    Along (step plant) (Seen plant Reliable) w rest → (∀ i, .fail i ∉ rest) → run (step plant) w rest = some w' →
    w'.calls.length = w.calls.length + 1 → w'.calls[w.calls.length]? = some call → ended call.phase = false →
    ∃ own u, (∀ a ∈ own, a ∈ [.readAck w.calls.length,.send w.calls.length,.sendReturns w.calls.length]) ∧
      run (step plant) w' own = some u ∧
      ∀ dt s, scan plant.plc u.plc dt = .ok s → ∃ w'' r,
        run (step plant) u [.scan dt,.poll w.calls.length] = some w'' ∧
        w''.calls[w.calls.length]? = some ⟨call.code,call.arg0,.done (.result r)⟩

theorem executed_once {plant : Plant} {w w' : World} {v : View} (ready : Ready plant w v)
    (idle : ∀ call ∈ w.calls, ended call.phase) (quiet : Quiet v) {rest : List Action}
    (spares : ∀ a ∈ rest, Spares plant a) (reliable : Along (step plant) (Seen plant Reliable) w rest)
    (unfailing : ∀ i, .fail i ∉ rest) (reached : run (step plant) w rest = some w')
    (one : w'.calls.length = w.calls.length + 1) (complete : ∀ call ∈ w'.calls, ended call.phase) :
    ∃ code arg0 n r, w'.calls[w.calls.length]? = some ⟨code,arg0,.done (.result r)⟩ ∧
      Served (trace plant w rest) (.call w.calls.length) code.toNat n r ∧
      executions (trace plant w rest) = [⟨code.toNat,n,r⟩] := by
  obtain ⟨_,_,calls,_⟩ := view_eq_some.mp ready.seen
  obtain ⟨v',ready',exact,attributed⟩ := run_exact ready (calls ▸ idle) quiet spares reliable
    (fun a member i same => unfailing i (same ▸ member)) reached
  obtain ⟨_,_,calls',_⟩ := view_eq_some.mp ready'.seen
  rw [← calls] at exact attributed
  rw [calls'] at one complete ⊢
  obtain ⟨call,there⟩ : ∃ call, v'.calls[w.calls.length]? = some call := ⟨_,List.getElem?_eq_getElem (by omega)⟩
  have stage := exact.stage _ call there
  have done := complete call (List.mem_of_getElem? there)
  obtain ⟨code,arg0,phase⟩ := call
  cases phase with
  | done outcome =>
    rcases stage le_rfl with ⟨r,rfl⟩ | ⟨_,failed⟩
    · obtain ⟨n,served⟩ := attributed.served _ _ r le_rfl there rfl
      refine ⟨code,arg0,n,r,there,served,?_⟩
      have member := execution_of_served served
      -- The one invoke has written at most one command, and nothing is owed.
      have settled : owed v'.regs = [] := if_pos (exact.quiet complete).1
      have few : ((commands (trace plant w rest)).map (·.1)).length ≤ 1 := by
        refine length_le_one_of_pairwise exact.ordered (n := w.calls.length) ?_
        simp only [List.forall_mem_map]
        intro entry listed
        have := exact.authors entry listed
        omega
      rw [List.length_map] at few
      have balance := congrArg List.length exact.balance
      simp only [settled,List.append_nil,List.length_map] at balance
      obtain ⟨e,only⟩ := List.length_eq_one_iff.mp
        (le_antisymm (balance ▸ few) (List.length_pos_of_mem member) : (executions (trace plant w rest)).length = 1)
      rw [only] at member ⊢
      rw [List.mem_singleton.mp member]
    · exact failed.elim
  | _ => cases done

/-- After a scan a poll finds the number in the block acknowledged, with its result. -/
theorem poll_after_scan {plant : Plant} {w : World} {s t : PlcState} {r : Regs} {dt : ℚ}
    (idle : ∀ call ∈ w.calls, ended call.phase) (mapped : BlocksMapped plant.plc s)
    (before : regs plant.plc s = some r) (answered : r.ackSeq = r.seq → ∃ result : AckResult, r.ackResult = result.toNat)
    (scanned : scan plant.plc s dt = .ok t) (issued : Option ℕ) (code : CmdCode) (arg0 : ℤ) :
    ∃ result, run (step plant) (lone w s issued code arg0 (.polling r.seq)) [.scan dt,.poll w.calls.length] =
      some (lone w t issued code arg0 (.done (.result result))) := by
  have after : ∃ (r' : Regs) (result : AckResult), regs plant.plc t = some r' ∧ r'.ackSeq = r.seq ∧
      r'.ackResult = result.toNat := by
    rcases scan_regs plant.runnable plant.built scanned before with ⟨same,_,after⟩ | ⟨result,_,_,after⟩
    · obtain ⟨result,carried⟩ := answered same.symm
      exact ⟨r,result,after,same.symm,carried⟩
    · exact ⟨_,result,after,rfl,rfl⟩
  obtain ⟨r',result,after,acked,carried⟩ := after
  have ready : Ready plant { w with plc := t } ⟨r',w.issued,w.calls,w.rogues⟩ :=
    ⟨scan_mapped scanned mapped,view_eq_some.mpr ⟨after,rfl,rfl,rfl⟩⟩
  obtain ⟨ackSeq,ackResult⟩ := readAckField_regs ready
  refine ⟨result,?_⟩
  simp only [run,step_scan_lone plant scanned,step_poll_lone plant idle ackSeq ackResult,Option.bind_some]
  simp [afterPoll,acked,carried,AckResult.ofNat?_toNat]

theorem idle_of_lastActive {calls : List Call} {call : Call} (last : LastActive (calls ++ [call])) :
    ∀ other ∈ calls, ended other.phase := by
  intro other member
  obtain ⟨i,here⟩ := List.mem_iff_getElem?.mp member
  have bound := (List.getElem?_eq_some_iff.mp here).1
  by_contra running
  have final := last i other (by rw [List.getElem?_append_left bound,here]) (by simpa using running)
  simp at final
  omega

/-- By its own steps an invoke under way comes to poll for the number in the block. -/
theorem comes_to_poll {plant : Plant} {w : World} {v : View} {s : PlcState} {issued : Option ℕ} {code : CmdCode}
    {arg0 : ℤ} {phase : Phase} {base : ℕ} {failures : Prop} {earlier : List Event}
    (ready : Ready plant (lone w s issued code arg0 phase) v) (exact : Exact base failures earlier v)
    (attributed : Attributed base earlier v.regs v.calls) (active : ended phase = false) :
    (∀ call ∈ w.calls, ended call.phase) ∧
    ∃ own t r, (∀ a ∈ own, a ∈ [.readAck w.calls.length,.send w.calls.length,.sendReturns w.calls.length]) ∧
      run (step plant) (lone w s issued code arg0 phase) own =
        some (lone w t (some r.seq) code arg0 (.polling r.seq)) ∧
      BlocksMapped plant.plc t ∧ regs plant.plc t = some r ∧
      (r.ackSeq = r.seq → ∃ result : AckResult, r.ackResult = result.toNat) := by
  obtain ⟨seen,sameIssued,calls,_⟩ := view_eq_some.mp ready.seen
  have there : v.calls[w.calls.length]? = some { code, arg0, phase } := by
    rw [← calls]
    simp [lone]
  have stage := exact.stage _ _ there
  have idle := idle_of_lastActive (calls ▸ exact.last)
  obtain ⟨t,served,mapped,after⟩ : ∃ t, writeBlock s plant.plc.contract.commandBlock
      (commandFields code arg0 (nextSeq v.regs.ackSeq)) = some t ∧ BlocksMapped plant.plc t ∧
      regs plant.plc t = some { v.regs with code := code.toNat, seq := nextSeq v.regs.ackSeq } :=
    writeBlock_regs plant ready.mapped seen code arg0 (nextSeq v.regs.ackSeq)
  have answered (waits : waiting phase = some v.regs.seq) (same : v.regs.ackSeq = v.regs.seq) :
      ∃ result : AckResult, v.regs.ackResult = result.toNat := by
    obtain ⟨result,_,carried⟩ := (attributed.awaiting _ _ _ there waits).answer same
    exact ⟨result,carried⟩
  refine ⟨idle,?_⟩
  cases phase with
  | reading =>
    refine ⟨[.readAck w.calls.length,.send w.calls.length,.sendReturns w.calls.length],t,_,by simp,?_,mapped,after,
      fun same => absurd same.symm (nextSeq_ne _)⟩
    have acked : readAckField plant s "ack_seq" = some v.regs.ackSeq := (readAckField_regs ready).1
    have read : afterRead issued v.regs.ackSeq = (issued,.writing (nextSeq v.regs.ackSeq) false) := by
      rcases afterRead_cases issued v.regs.ackSeq with ⟨_,read⟩ | ⟨expected,known,different,_⟩
      · exact read
      · have quiet := stage.1.2
        rw [← sameIssued] at quiet
        simp [lone,known,different.symm] at quiet
    simp only [run,step_readAck_lone plant idle acked,read,step_send_lone plant idle served,step_sendReturns_lone,
      Option.bind_some]
  | writing n applied =>
    cases applied with
    | false =>
      obtain ⟨_,rfl,_⟩ := stage
      refine ⟨[.send w.calls.length,.sendReturns w.calls.length],t,_,by simp,?_,mapped,after,
        fun same => absurd same.symm (nextSeq_ne _)⟩
      simp only [run,step_send_lone plant idle served,step_sendReturns_lone,Option.bind_some]
    | true =>
      obtain ⟨_,rfl,_⟩ := stage
      refine ⟨[.sendReturns w.calls.length],s,v.regs,by simp,?_,ready.mapped,seen,answered rfl⟩
      simp only [run,step_sendReturns_lone,Option.bind_some]
  | polling n =>
    obtain ⟨rfl,known⟩ := stage
    have known : issued = some v.regs.seq := sameIssued.trans known
    exact ⟨[],s,v.regs,by simp,by rw [known]; rfl,ready.mapped,seen,answered rfl⟩
  | done outcome => cases active

theorem eq_lone {w : World} {n : ℕ} {call : Call} (length : w.calls.length = n + 1) (last : w.calls[n]? = some call) :
    w = lone { w with calls := w.calls.take n } w.plc w.issued call.code call.arg0 call.phase := by
  have split : w.calls = w.calls.take n ++ [call] := by
    obtain ⟨bound,here⟩ := List.getElem?_eq_some_iff.mp last
    rw [← here,List.take_concat_get',List.take_of_length_le (by omega)]
  cases w
  simpa [lone] using split

theorem returns_after_scan {plant : Plant} {w w' : World} {v : View} (ready : Ready plant w v)
    (idle : ∀ call ∈ w.calls, ended call.phase) (quiet : Quiet v) {rest : List Action}
    (spares : ∀ a ∈ rest, Spares plant a) (reliable : Along (step plant) (Seen plant Reliable) w rest)
    (reached : run (step plant) w rest = some w') (one : w'.calls.length = w.calls.length + 1) {call : Call}
    (there : w'.calls[w.calls.length]? = some call) (active : ended call.phase = false) :
    ∃ own u, (∀ a ∈ own, a ∈ [.readAck w.calls.length,.send w.calls.length,.sendReturns w.calls.length]) ∧
      run (step plant) w' own = some u ∧
      ∀ dt s, scan plant.plc u.plc dt = .ok s → ∃ w'' r,
        run (step plant) u [.scan dt,.poll w.calls.length] = some w'' ∧
        w''.calls[w.calls.length]? = some ⟨call.code,call.arg0,.done (.result r)⟩ := by
  obtain ⟨_,_,calls,_⟩ := view_eq_some.mp ready.seen
  obtain ⟨v',ready',exact,attributed⟩ := run_exact ready (calls ▸ idle) quiet spares reliable
    (fun _ _ _ _ => True.intro) reached
  have length : (w'.calls.take w.calls.length).length = w.calls.length := by
    rw [List.length_take]
    omega
  have whole := eq_lone one there
  rw [whole] at ready'
  obtain ⟨idle',own,t,r,steps,gone,mapped,after,answered⟩ := comes_to_poll ready' exact attributed active
  rw [← whole] at gone
  simp only [length] at steps
  refine ⟨own,_,steps,gone,fun dt s scanned => ?_⟩
  obtain ⟨result,polled⟩ := poll_after_scan idle' mapped after answered scanned (some r.seq) call.code call.arg0
  simp only [length] at polled
  refine ⟨_,result,polled,?_⟩
  simp [lone,length]

/-- Foreign commands between two invokes, fewer than 65536 and each executed, are
    detected by the next invoke, which touches nothing, and the one after it goes through. -/
theorem contention_detected_and_recovered {plant : Plant} {w₀ w₁ : World} {s : ℕ} {r₀ r₁ : Regs} {foreign : List Action}
    (mapped : BlocksMapped plant.plc w₀.plc) (idle : ∀ call ∈ w₀.calls, ended call.phase) (issued : w₀.issued = some s)
    (before : regs plant.plc w₀.plc = some r₀) (acknowledged : r₀.seq = s ∧ r₀.ackSeq = s) (rested : w₀.rogues = [])
    (spares : ∀ a ∈ foreign, Spares plant a) (others : Along (step plant) (Seen plant Foreign) w₀ foreign)
    (reached : run (step plant) w₀ foreign = some w₁) (after : regs plant.plc w₁.plc = some r₁)
    (executed : r₁.seq = r₁.ackSeq) (driven : 1 ≤ (foreignCodes (trace plant w₀ foreign)).length)
    (bounded : (foreignCodes (trace plant w₀ foreign)).length ≤ 65535) :
    (executions (trace plant w₀ foreign)).map (·.code) = foreignCodes (trace plant w₀ foreign) ∧
    ∀ (between : List Action) (u : World) (code : CmdCode) (arg0 : ℤ), (∀ a ∈ between, Rests a) →
      (∀ a ∈ between, Spares plant a) → run (step plant) w₁ between = some u →
      let next := .call code arg0 :: (between ++ [.readAck w₀.calls.length])
      ∃ w₂, run (step plant) w₁ next = some w₂ ∧
        w₂.calls = w₀.calls ++ [⟨code,arg0,.done (.contended r₁.ackSeq s)⟩] ∧
        w₂.plc = u.plc ∧ trace plant w₁ next = [] ∧ w₂.issued = some r₁.ackSeq ∧ NextExecuted plant w₂ := by
  obtain ⟨v₀,ready₀⟩ := ready_exists mapped
  obtain ⟨seen₀,issued₀,calls₀,rogues₀⟩ := view_eq_some.mp ready₀.seen
  cases before.symm.trans seen₀
  obtain ⟨same,acked⟩ := acknowledged
  obtain ⟨v₁,ready₁,driven₁⟩ := run_driven ready₀ (rogues₀ ▸ rested) (same.trans acked.symm) spares others reached
  obtain ⟨seen₁,issued₁,calls₁,_⟩ := view_eq_some.mp ready₁.seen
  cases after.symm.trans seen₁
  have sameCalls : w₁.calls = w₀.calls := calls₁.trans (driven₁.calls.trans calls₀.symm)
  have sameIssued : w₁.issued = some s := issued₁.trans (driven₁.issued.trans (issued₀.symm.trans issued))
  have codes := driven₁.codes executed
  have stranger : v₁.regs.ackSeq ≠ s := by
    rw [← codes,List.length_map] at driven bounded
    rw [← acked]
    exact driven₁.stranger driven bounded
  refine ⟨codes,?_⟩
  intro between u code arg0 rests sparesBetween between_reached
  obtain ⟨refused,silent⟩ := run_refused ready₁ (sameCalls ▸ idle) executed sameIssued stranger rests sparesBetween
    between_reached code arg0
  rw [sameCalls] at refused silent
  obtain ⟨readyU,_⟩ := run_rests ready₁ executed rests sparesBetween between_reached
  refine ⟨_,refused,by simp [lone,sameCalls],rfl,silent,rfl,?_⟩
  have ready₂ : Ready plant (lone w₁ u.plc (some v₁.regs.ackSeq) code arg0 (.done (.contended v₁.regs.ackSeq s)))
      ⟨v₁.regs,some v₁.regs.ackSeq,_,w₁.rogues⟩ := readyU.masters _ _ _
  have idle₂ : ∀ call ∈ w₁.calls ++ [⟨code,arg0,.done (.contended v₁.regs.ackSeq s)⟩], ended call.phase := by
    simp only [List.mem_append,List.mem_singleton,or_imp,forall_and,forall_eq]
    exact ⟨sameCalls ▸ idle,rfl⟩
  exact {
    once := fun rest w' sparesRest reliable unfailing ends one complete =>
      executed_once ready₂ idle₂ ⟨executed,.inr rfl⟩ sparesRest reliable unfailing ends one complete
    returns := fun rest w' call sparesRest reliable _ ends one there active =>
      returns_after_scan ready₂ idle₂ ⟨executed,.inr rfl⟩ sparesRest reliable ends one there active }

/-- The shipped plant, with a gateway whose last invoke was acknowledged with the last number. -/
def wrappedWorld : World where
  plc := request (request Shipped.booted 16 103 [65535]) 16 110 [65535,0]
  issued := some 65535
  calls := [⟨.start,0,.done (.result .ok)⟩]

theorem shipped_contention_detected_and_recovered :
    let foreign := [.rogueRead .stop,.write 16 10 [1500],.rogueWrite 0,.scan (1 / 100),.scan (1 / 100),.rogueRead .start,
      .rogueWrite 0,.scan (1 / 100)]
    ∃ w₁, run (step shipped) wrappedWorld foreign = some w₁ ∧
      (executions (trace shipped wrappedWorld foreign)).map (·.code) = foreignCodes (trace shipped wrappedWorld foreign) ∧
      ∀ (between : List Action) (u : World) (code : CmdCode) (arg0 : ℤ), (∀ a ∈ between, Rests a) →
        (∀ a ∈ between, Spares shipped a) → run (step shipped) w₁ between = some u →
        let next := .call code arg0 :: (between ++ [.readAck 1])
        ∃ w₂, run (step shipped) w₁ next = some w₂ ∧
          w₂.calls = wrappedWorld.calls ++ [⟨code,arg0,.done (.contended 1 65535)⟩] ∧
          w₂.plc = u.plc ∧ trace shipped w₁ next = [] ∧ w₂.issued = some 1 ∧ NextExecuted shipped w₂ := by
  intro foreign
  have ends : (run (step shipped) wrappedWorld foreign).map (fun w => regs shipped.plc w.plc) =
      some (some ⟨1,1,1,0⟩) := by decide +kernel
  obtain ⟨w₁,reached,after⟩ := Option.map_eq_some_iff.mp ends
  have before : regs shipped.plc wrappedWorld.plc = some ⟨0,65535,65535,0⟩ := by decide +kernel
  have mapped : BlocksMapped shipped.plc wrappedWorld.plc :=
    request_mapped (request_mapped shippedWorld_mapped _ _ _) _ _ _
  exact ⟨w₁,reached,contention_detected_and_recovered mapped (by decide) rfl before ⟨rfl,rfl⟩ rfl (by decide +kernel)
    (by decide +kernel) reached after rfl (by decide +kernel) (by decide +kernel)⟩

end MockPlant.Recovery
