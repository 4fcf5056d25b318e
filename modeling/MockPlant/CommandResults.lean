import MockPlant.Attribution
import MockPlant.CommandEffects
import MockPlant.MethodCalls
import MockPlant.Projections

/-!
From a method call to the machines. The result that an invoke returns is of its own block,
the scan that executed the block made the command's change to the machines exactly when
the result is OK, and the status of the method call is good for that result alone.
-/
namespace MockPlant.CommandResults
open MockPlant.Python MockPlant.Contract MockPlant.Machine MockPlant.Plc MockPlant.Runs MockPlant.Projections
open MockPlant.ScanCommands MockPlant.Handshake MockPlant.Masters MockPlant.Attribution MockPlant.CommandEffects
open MockPlant.MethodCalls (ackStatus ackStatus_good)
open MockPlant.Mailbox (Served)

/-! ### What a command does -/

/-- What the scan that executes a command does to the machines on its account. -/
def Done (s s' : PlcState) (dt : ℚ) : CmdCode → Prop
  | .none => False
  | .start => s.conveyor.fault = false ∧ s'.conveyor.running = true
  | .stop => s'.conveyor.running = false
  | .cncStart => s.cnc.state = .idle ∧ s.cnc.start.step dt = .ok s'.cnc
  | .cncReset => s.cnc.state = .fault ∧ s.cnc.reset.step dt = .ok s'.cnc

/-- Why the machines do not permit a command. -/
def Forbidden (s : PlcState) : CmdCode → Prop
  | .none | .stop => False
  | .start => s.conveyor.fault = true
  | .cncStart => s.cnc.state ≠ .idle
  | .cncReset => s.cnc.state ≠ .fault

theorem permits_iff (s : PlcState) (code : CmdCode) : Permits s code.toNat ↔ code ≠ .none ∧ ¬ Forbidden s code := by
  cases code <;> simp [Permits,Forbidden,CmdCode.toNat]

theorem known_iff (code : CmdCode) : Known code.toNat ↔ code ≠ .none := by
  cases code <;> simp [Known,CmdCode.toNat]

/-- A step of the conveyor leaves its running as it is. -/
theorem step_running {c c' : Conveyor} {dt : ℚ} (stepped : c.step dt = .ok c') : c'.running = c.running := by
  obtain ⟨_,_,done⟩ := bind_eq_ok.mp stepped
  cases done
  rfl

/-- A scan that executes a command with the result OK does it. -/
theorem scan_done {plc : Plc} {s s' : PlcState} {dt : ℚ} (scanned : scan plc s dt = .ok s') {code : CmdCode} {seq : ℕ}
    (executed : executes plc s = some ⟨code.toNat,seq,.ok⟩) : Done s s' dt code := by
  obtain ⟨holding,out,memory,conveyor,cnc,hHolding,hExecute,_,hConveyor,hCnc,rfl⟩ := scan_ok.mp scanned
  obtain ⟨signals,command,hSignals,hCommand,cases⟩ := execute_cases hExecute
  obtain ⟨running,start,reset⟩ := computeSignals_asks hSignals
  have inputs := readInputs_ok.mpr ⟨holding,hHolding,rfl,rfl⟩
  have decided : execution (snapshot s holding) command = some ⟨code.toNat,seq,.ok⟩ := by
    simpa [executes,inputs,hCommand] using executed
  unfold execution at decided
  split_ifs at decided with pending
  rcases cases with ⟨same,_⟩ | ⟨_,_,_,_,_,rfl⟩
  · exact absurd same pending
  · simp only [Option.some.injEq,Execution.mk.injEq] at decided
    obtain ⟨hCode,_,result⟩ := decided
    have permitted : Permits s code.toNat :=
      ((runCommand_result holding s code.toNat {}).1).mp (by rw [← hCode]; exact result)
    rw [hCode] at hConveyor hCnc
    have ran := step_running hConveyor
    obtain ⟨named,free⟩ := (permits_iff s code).mp permitted
    cases code with
    | none => exact named rfl
    | start =>
      have sound : s.conveyor.fault = false := by simpa [Forbidden] using free
      exact ⟨sound,by simpa [commanded,runCommand,CmdCode.toNat,snapshot,sound] using ran⟩
    | stop => simpa [Done,commanded,runCommand,CmdCode.toNat] using ran
    | cncStart =>
      have idle : s.cnc.state = .idle := by simpa [Forbidden] using free
      exact ⟨idle,by simpa [commanded,runCommand,CmdCode.toNat,snapshot,idle,start,reset] using hCnc⟩
    | cncReset =>
      have faulted : s.cnc.state = .fault := by simpa [Forbidden] using free
      exact ⟨faulted,by simpa [commanded,runCommand,CmdCode.toNat,snapshot,faulted,start,reset] using hCnc⟩

/-! ### The scan behind a result -/

/-- A scan of the run that executes the invoke's own block, the last one written before it.
    The status is good when the command was done, and otherwise tells why it was not; the
    machines are those of the scan without the command, but for its change. -/
def Accounts (plant : Plant) (w₀ : World) (actions : List Action) (i : ℕ) (code : CmdCode) (result : AckResult) : Prop :=
  ∃ earlier dt later first w s' r t p q, actions = earlier ++ .scan dt :: later ∧ run (step plant) w₀ earlier = some w ∧
    scan plant.plc w.plc dt = .ok s' ∧ trace plant w₀ earlier = first ++ [.wrote (.call i) code.toNat r.seq] ∧
    regs plant.plc w.plc = some r ∧ r.code = code.toNat ∧
    executes plant.plc w.plc = some ⟨code.toNat,r.seq,result⟩ ∧ (ackStatus result = .good ↔ Done w.plc s' dt code) ∧
    (ackStatus result = .badInvalidState ↔ Forbidden w.plc code) ∧ (ackStatus result = .badOutOfRange ↔ code = .none) ∧
    withoutCommand plant.plc w.plc = .ok t ∧ scan plant.plc t dt = .ok q ∧ Tells plant.plc dt r w.plc s' p q result

section
variable {plant : Plant} {w₀ : World} {actions : List Action}

/-- What was served was executed by a scan of the run. -/
theorem served_scan {i n : ℕ} {code : ℕ} {result : AckResult} (served : Served (trace plant w₀ actions) (.call i) code n result) :
    ∃ earlier dt later first w s', actions = earlier ++ .scan dt :: later ∧ run (step plant) w₀ earlier = some w ∧
      Plc.scan plant.plc w.plc dt = .ok s' ∧ executes plant.plc w.plc = some ⟨code,n,result⟩ ∧
      trace plant w₀ earlier = first ++ [.wrote (.call i) code n] := by
  obtain ⟨first,rest,split⟩ := served
  rw [List.append_cons] at split
  obtain ⟨earlier,a,later,w,u,before,after,rfl,reached,moved,shows,same⟩ := log_split split
  have only (dt : ℚ) (is : a = .scan dt) : ∃ s', Plc.scan plant.plc w.plc dt = .ok s' ∧
      executes plant.plc w.plc = some ⟨code,n,result⟩ ∧ before = [] := by
    subst is
    obtain ⟨s',scanned,_⟩ := Option.bind_eq_some_iff.mp moved
    refine ⟨s',toOption_eq_ok.mp scanned,?_⟩
    simp only [observe] at shows
    cases found : executes plant.plc w.plc with
    | none => simp [found] at shows
    | some e =>
      simp only [found] at shows
      cases before with
      | nil =>
        simp only [List.nil_append,List.cons.injEq,Mailbox.Event.executed.injEq] at shows
        obtain ⟨⟨rfl,rfl,rfl⟩,_⟩ := shows
        exact ⟨rfl,rfl⟩
      | cons y before => simp at shows
  cases a with
  | scan dt =>
    obtain ⟨s',scanned,executed,rfl⟩ := only dt rfl
    exact ⟨earlier,dt,later,first,w,s',rfl,reached,scanned,executed,by simpa [trace] using same.symm⟩
  | send j =>
    simp only [observe] at shows
    split at shows <;> cases before <;> simp at shows
  | rogueWrite k =>
    simp only [observe] at shows
    split at shows <;> cases before <;> simp at shows
  | _ => simp [observe] at shows

/-- An executed command beside the scan without it. -/
theorem executed_tells (created : Plc.new plant.plc.contract = .ok plant.plc) (parameters : Parameters plant.plc)
    {s s' : PlcState} {dt : ℚ} (scanned : scan plant.plc s dt = .ok s') {r : Regs} (before : regs plant.plc s = some r)
    (pending : r.seq ≠ r.ackSeq) {n : ℕ} {result : AckResult} (executed : executes plant.plc s = some ⟨r.code,n,result⟩) :
    ∃ t p q, withoutCommand plant.plc s = .ok t ∧ scan plant.plc t dt = .ok q ∧ Tells plant.plc dt r s s' p q result := by
  obtain ⟨holding,decided⟩ := executes_result executed
  obtain ⟨ok,range,state⟩ := runCommand_result holding s r.code {}
  rw [← decided] at ok range state
  rw [scan_eq] at scanned
  obtain ⟨ps,written,stepped⟩ := bind_eq_ok.mp scanned
  obtain ⟨t,p,without,quiet,permits,permitted,refused,elsewhere⟩ :=
    scanOutputs_without plant.runnable created parameters written before pending
  have scans {q : PlcState} (completes : stepMachines p dt = .ok q) : scan plant.plc t dt = .ok q := by
    rw [scan_eq]
    exact bind_eq_ok.mpr ⟨p,quiet,completes⟩
  have apart {q : PlcState} (completes : stepMachines p dt = .ok q) (table : Table) (a : ℤ)
      (outside : ¬ InBlocks plant.plc table a) :
      s'.memory.get table a = q.memory.get table a := by
    rw [stepped_memory completes,stepped_memory stepped]
    exact elsewhere table a outside
  have same := stepMachines_memory stepped p.memory
  by_cases possible : Permits s r.code
  · obtain ⟨q,completes⟩ := stepMachines_without (permits.mpr possible) (permitted possible ▸ same)
    refine ⟨t,p,q,without,scans completes,ok,range,state,fun _ => ?_,?_,apart completes⟩
    · rw [stepped_memory completes,← permitted possible]
      exact same
    · rintro (isState | isRange)
      · exact absurd possible (state.mp isState).2
      · cases isRange.symm.trans (ok.mpr possible)
  · rw [refused possible] at same
    exact ⟨t,p,_,without,scans same,ok,range,state,fun accepted => absurd (ok.mp accepted) possible,fun _ => rfl,apart same⟩

/-- The scan that served an invoke accounts for its result. -/
theorem accounts_of_served (created : Plc.new plant.plc.contract = .ok plant.plc) (parameters : Parameters plant.plc)
    (mapped : BlocksMapped plant.plc w₀.plc) (spares : ∀ a ∈ actions, Spares plant a) {i n : ℕ} {code : CmdCode}
    {result : AckResult} (served : Served (trace plant w₀ actions) (.call i) code.toNat n result) :
    Accounts plant w₀ actions i code result := by
  obtain ⟨earlier,dt,later,first,w,s',rfl,reached,scanned,executed,wrote⟩ := served_scan served
  obtain ⟨v₀,ready₀⟩ := ready_exists mapped
  obtain ⟨v,ready,_⟩ := run_moves (P := fun _ _ => True) (I := fun _ _ => True) ready₀ trivial (fun _ _ _ _ _ _ _ _ => trivial)
    (fun a member => spares a (List.mem_append_left _ member)) (seen_of_forall (fun _ _ => trivial) w₀) reached
  have before := (view_eq_some.mp ready.seen).1
  obtain ⟨_,idle,_⟩ | ⟨result',pending,ran,_⟩ := scan_regs plant.runnable plant.built scanned before
  · rw [idle] at executed
    cases executed
  · obtain ⟨t,p,q,without,quiet,tells⟩ := executed_tells created parameters scanned before pending ran
    have found := ran.symm.trans executed
    simp only [Option.some.injEq,Execution.mk.injEq] at found
    obtain ⟨sameCode,sameSeq,rfl⟩ := found
    obtain ⟨named,known⟩ := And.intro (permits_iff w.plc code) (known_iff code)
    rw [← sameCode] at named known
    refine ⟨earlier,dt,later,first,w,s',v.regs,t,p,q,rfl,reached,scanned,sameSeq ▸ wrote,before,sameCode,sameSeq ▸ executed,
      ?_,?_,?_,without,quiet,tells⟩
    · rw [ackStatus_good]
      constructor
      · rintro rfl
        exact scan_done scanned executed
      · intro done
        refine tells.ok.mpr (named.mpr ?_)
        cases code <;> simp_all [Done,Forbidden]
    · have status : ackStatus result' = .badInvalidState ↔ result' = .state := by cases result' <;> simp [ackStatus]
      rw [status,tells.state,known,named]
      cases code <;> simp [Forbidden]
    · have status : ackStatus result' = .badOutOfRange ↔ result' = .range := by cases result' <;> simp [ackStatus]
      rw [status,tells.range,known,not_not]

/-- Beside another master and with any timeouts, every result that an invoke returns is
    accounted for by a scan of the run, as long as every block goes out under a new number
    and the other master replaces no waiting number that is still unacknowledged. -/
theorem results_accounted (created : Plc.new plant.plc.contract = .ok plant.plc) (parameters : Parameters plant.plc)
    {w : World} (mapped : BlocksMapped plant.plc w₀.plc) (fresh : w₀.calls = []) (spares : ∀ a ∈ actions, Spares plant a)
    (sequential : Along (step plant) (Seen plant Sequential) w₀ actions)
    (ownNumbers : Along (step plant) (Seen plant (fun v a => Unacknowledged v a ∧ Undisputed v a)) w₀ actions)
    (reached : run (step plant) w₀ actions = some w) {i : ℕ} {call : Call} {result : AckResult}
    (found : w.calls[i]? = some call) (returned : call.phase = .done (.result result)) :
    Accounts plant w₀ actions i call.code result := by
  have served := run_attributed mapped fresh spares (ownNumbers.imp fun _ _ meets v seen => (meets v seen).1)
    (unshared_along mapped fresh spares sequential) (ownNumbers.imp fun _ _ meets v seen => (meets v seen).2) reached
  obtain ⟨n,served⟩ := served i call result found returned
  exact accounts_of_served created parameters mapped spares served

end

/-- A start of the conveyor is done while the other master stops it before and after. -/
theorem shipped_results_accounted :
    let actions := [.rogueRead .stop,.rogueWrite 0,.scan (1 / 100),.call .start 0,.readAck 0,.send 0,.sendReturns 0,
      .scan (1 / 100),.rogueRead .stop,.poll 0,.rogueWrite 0,.scan (1 / 100)]
    (run (step shipped) shippedWorld actions).map (·.calls) = some [⟨.start,0,.done (.result .ok)⟩] ∧
      Accounts shipped shippedWorld actions 0 .start .ok := by
  intro actions
  have ends : (run (step shipped) shippedWorld actions).map (·.calls) = some [⟨.start,0,.done (.result .ok)⟩] := by
    decide +kernel
  obtain ⟨w,reached,calls⟩ := Option.map_eq_some_iff.mp ends
  have found : w.calls[0]? = some ⟨.start,0,.done (.result .ok)⟩ := by rw [calls]; rfl
  exact ⟨ends,results_accounted Shipped.new_tags shipped_parameters shippedWorld_mapped rfl (by decide +kernel)
    (by decide +kernel) (by decide +kernel) reached found rfl⟩

end MockPlant.CommandResults
