import MockPlant.RegisterMap

/-!
What an acknowledgement says. A scan decides on a command from its snapshot and applies it
when it writes its outputs, before the machines step. Beside the same scan without the
command an accepted one makes its change to the machines and nothing else, and any other
leaves them as they would be, with no difference in the registers but those of the two blocks.
-/
namespace MockPlant.CommandEffects
open MockPlant.Python MockPlant.Contract MockPlant.Codec MockPlant.Machine MockPlant.ModbusServer MockPlant.Plc
open MockPlant.Overlays MockPlant.Runs MockPlant.ScanCommands MockPlant.RegisterMap

/-! ### The scan and its commands -/

/-- A scan as far as its outputs. -/
def scanOutputs (plc : Plc) (s : PlcState) : Except PyError PlcState := do
  let (image,s) ← readInputs s
  let outputs ← execute plc image
  writeOutputs s outputs

/-- The rest of it. -/
def stepMachines (s : PlcState) (dt : ℚ) : Except PyError PlcState := do
  let conveyor ← s.conveyor.step dt
  let cnc ← s.cnc.step dt
  pure { s with conveyor, cnc }

/-- The state with the number acknowledged last in the register of the command's number. -/
def withoutCommand (plc : Plc) (s : PlcState) : Except PyError PlcState := do
  let ackIdx ← lookup (plc.ackIdx "ack_seq")
  let lastAckSeq ← lookup (s.memory.get .holding (plc.contract.ackBlock.base + ackIdx))
  let seqIdx ← lookup (plc.cmdIdx "seq")
  let memory ← s.memory.put .holding (plc.contract.commandBlock.base + seqIdx) lastAckSeq
  pure { s with memory }

/-- The four codes that are commands. -/
def Known (code : ℕ) : Prop :=
  code ∈ [CmdCode.start,CmdCode.stop,CmdCode.cncStart,CmdCode.cncReset].map CmdCode.toNat

/-- A command whose condition the machines meet. -/
def Permits (s : PlcState) (code : ℕ) : Prop :=
  code = CmdCode.start.toNat ∧ s.conveyor.fault = false ∨ code = CmdCode.stop.toNat ∨
    code = CmdCode.cncStart.toNat ∧ s.cnc.state = .idle ∨ code = CmdCode.cncReset.toNat ∧ s.cnc.state = .fault

/-- What each command is to do to the machines. -/
def applyCommand (code : ℕ) (s : PlcState) : PlcState :=
  if code = CmdCode.start.toNat then { s with conveyor := { s.conveyor with running := true } }
  else if code = CmdCode.stop.toNat then { s with conveyor := { s.conveyor with running := false } }
  else if code = CmdCode.cncStart.toNat then { s with cnc := s.cnc.start }
  else if code = CmdCode.cncReset.toNat then { s with cnc := s.cnc.reset }
  else s

theorem scan_eq (plc : Plc) (s : PlcState) (dt : ℚ) :
    scan plc s dt = scanOutputs plc s >>= fun p => stepMachines p dt := by
  simp only [scan,scanOutputs,stepMachines,bind_assoc]

theorem scanOutputs_ok {plc : Plc} {s p : PlcState} : scanOutputs plc s = .ok p ↔ ∃ holding out memory,
    s.memory .holding = some holding ∧ execute plc (snapshot s holding) = .ok out ∧
      s.memory.update out.memoryUpdates = .ok memory ∧
      p = { memory, conveyor := (commanded s out).1, cnc := (commanded s out).2, partPulse := false } := by
  simp only [scanOutputs,bind_eq_ok,Prod.exists]
  constructor
  · rintro ⟨image,t,inputs,out,executed,wrote⟩
    obtain ⟨holding,hHolding,rfl,rfl⟩ := readInputs_ok.mp inputs
    obtain ⟨memory,updated,same⟩ := bind_eq_ok.mp wrote
    cases same
    exact ⟨holding,out,memory,hHolding,executed,updated,rfl⟩
  · rintro ⟨holding,out,memory,hHolding,executed,updated,rfl⟩
    exact ⟨_,_,readInputs_ok.mpr ⟨holding,hHolding,rfl,rfl⟩,out,executed,bind_eq_ok.mpr ⟨memory,updated,rfl⟩⟩

theorem stepMachines_ok {p q : PlcState} {dt : ℚ} : stepMachines p dt = .ok q ↔ ∃ conveyor cnc,
    p.conveyor.step dt = .ok conveyor ∧ p.cnc.step dt = .ok cnc ∧ q = { p with conveyor, cnc } := by
  simp only [stepMachines,bind_eq_ok,pure,Except.pure,Except.ok.injEq]
  constructor
  · rintro ⟨conveyor,hConveyor,cnc,hCnc,rfl⟩
    exact ⟨conveyor,cnc,hConveyor,hCnc,rfl⟩
  · rintro ⟨conveyor,cnc,hConveyor,hCnc,rfl⟩
    exact ⟨conveyor,hConveyor,cnc,hCnc,rfl⟩

theorem stepped_memory {p q : PlcState} {dt : ℚ} (stepped : stepMachines p dt = .ok q) : q.memory = p.memory := by
  obtain ⟨_,_,_,_,rfl⟩ := stepMachines_ok.mp stepped
  rfl

/-- The machines do not look at memory. -/
theorem stepMachines_memory {p q : PlcState} {dt : ℚ} (stepped : stepMachines p dt = .ok q) (memory : Memory) :
    stepMachines { p with memory } dt = .ok { q with memory } := by
  obtain ⟨conveyor,cnc,hConveyor,hCnc,rfl⟩ := stepMachines_ok.mp stepped
  exact stepMachines_ok.mpr ⟨conveyor,cnc,hConveyor,hCnc,rfl⟩

/-- A command changes nothing but the machines. -/
theorem applyCommand_eq (code : ℕ) (s : PlcState) :
    applyCommand code s = { s with conveyor := (applyCommand code s).conveyor, cnc := (applyCommand code s).cnc } := by
  unfold applyCommand
  split_ifs <;> rfl

/-! ### The decision -/

section
variable {s : PlcState} (holding : Registers) {code : ℕ}

/-- The result says which commands the machines permit. -/
theorem runCommand_result (s : PlcState) (code : ℕ) (outputs : OutputImage) :
    ((runCommand (snapshot s holding) code outputs).1 = .ok ↔ Permits s code) ∧
      ((runCommand (snapshot s holding) code outputs).1 = .range ↔ ¬ Known code) ∧
      ((runCommand (snapshot s holding) code outputs).1 = .state ↔ Known code ∧ ¬ Permits s code) := by
  unfold runCommand Known Permits
  split_ifs <;> simp_all [snapshot,CmdCode.toNat]

/-- A command that the machines do not permit is left out of the outputs. -/
theorem runCommand_refused (refused : ¬ Permits s code) (outputs : OutputImage) :
    (runCommand (snapshot s holding) code outputs).2 = outputs := by
  unfold runCommand
  split_ifs <;> simp_all [snapshot,Permits]

/-- A permitted command makes its change to the machines that would step without it. -/
theorem runCommand_permitted (permitted : Permits s code) {signals : OutputImage} (running : signals.conveyorRunning = none)
    (start : signals.cncStart = false) (reset : signals.cncReset = false) (p : PlcState)
    (machines : commanded s signals = (p.conveyor,p.cnc)) :
    commanded s (runCommand (snapshot s holding) code signals).2 =
      ((applyCommand code p).conveyor,(applyCommand code p).cnc) := by
  obtain ⟨conveyor,cnc⟩ := Prod.mk.inj machines
  rcases permitted with ⟨rfl,sound⟩ | rfl | ⟨rfl,idle⟩ | ⟨rfl,faulted⟩
  · simp [runCommand,applyCommand,commanded,snapshot,sound,← conveyor,← cnc,start,reset]
  · simp [runCommand,applyCommand,commanded,CmdCode.toNat,← conveyor,← cnc,start,reset]
  · simp [runCommand,applyCommand,commanded,CmdCode.toNat,snapshot,idle,← conveyor,← cnc,running,start,reset]
  · simp [runCommand,applyCommand,commanded,CmdCode.toNat,snapshot,faulted,← conveyor,← cnc,running,start,reset]

/-- What a step completes with a permitted command it completes without one. -/
theorem stepMachines_without {p u : PlcState} {dt : ℚ} (permitted : Permits p code)
    (stepped : stepMachines (applyCommand code p) dt = .ok u) : ∃ q, stepMachines p dt = .ok q := by
  obtain ⟨conveyor,cnc,hConveyor,hCnc,_⟩ := stepMachines_ok.mp stepped
  rcases permitted with ⟨rfl,_⟩ | rfl | ⟨rfl,idle⟩ | ⟨rfl,faulted⟩
  · obtain ⟨conveyor',hConveyor'⟩ := Conveyor.step_running true hConveyor
    exact ⟨_,stepMachines_ok.mpr ⟨conveyor',cnc,hConveyor',hCnc,rfl⟩⟩
  · obtain ⟨conveyor',hConveyor'⟩ := Conveyor.step_running false hConveyor
    exact ⟨_,stepMachines_ok.mpr ⟨conveyor',cnc,hConveyor',hCnc,rfl⟩⟩
  · have resting : p.cnc.state ∉ cycleOrder := by simp [idle,cycleOrder]
    exact ⟨_,stepMachines_ok.mpr ⟨conveyor,_,hConveyor,Cnc.step_resting resting dt,rfl⟩⟩
  · have resting : p.cnc.state ∉ cycleOrder := by simp [faulted,cycleOrder]
    exact ⟨_,stepMachines_ok.mpr ⟨conveyor,_,hConveyor,Cnc.step_resting resting dt,rfl⟩⟩

end

/-! ### The scan without the command -/

/-- The parameters that a scan reads from its snapshot are in the table it is taken of. -/
structure Parameters (plc : Plc) : Prop where
  setpoint : plc.setpointSignal.modbus.table = .holding
  ramp : plc.rampSignal.modbus.table = .holding

theorem mapM_congr {α β : Type} {f g : α → Except PyError β} {l : List α} (same : ∀ a ∈ l, f a = g a) :
    l.mapM f = l.mapM g := by
  induction l with
  | nil => rfl
  | cons a rest ih =>
    obtain ⟨first,later⟩ := List.forall_mem_cons.mp same
    rw [List.mapM_cons,List.mapM_cons,first,ih later]

theorem readSignal_congr (image image' : InputImage) {signal : Signal} (metadata : Meta)
    (same : ∀ a ∈ signal.modbus.span, image.holding a = image'.holding a) :
    readSignal image signal metadata = readSignal image' signal metadata := by
  have words : signal.modbus.span.toList.mapM (fun a => lookup (image.holding a)) =
      signal.modbus.span.toList.mapM (fun a => lookup (image'.holding a)) :=
    mapM_congr fun a member => congrArg lookup (same a (Span.mem_toList.mp member))
  simp only [readSignal,words]

/-- A register outside the parameters has no part in the signals. -/
theorem computeSignals_set {plc : Plc} {s : PlcState} {holding : Registers} {a : ℤ} (w : ℕ)
    (setpoint : a ∉ plc.setpointSignal.modbus.span) (ramp : a ∉ plc.rampSignal.modbus.span) (memory : Memory) :
    computeSignals plc (snapshot { s with memory } (Registers.set holding a w)) =
      computeSignals plc (snapshot s holding) := by
  have kept {span : Span} (outside : a ∉ span) (b : ℤ) (inside : b ∈ span) : holding.set a w b = holding b := by
    have other : b ≠ a := by
      rintro rfl
      exact outside inside
    simp [Registers.set,other]
  have first := readSignal_congr (snapshot { s with memory } (holding.set a w)) (snapshot s holding) plc.contract.metadata
    (kept setpoint)
  have second := readSignal_congr (snapshot { s with memory } (holding.set a w)) (snapshot s holding) plc.contract.metadata
    (kept ramp)
  simp only [computeSignals,first,second]
  rfl

theorem new_setpoint {contract : Contract} {plc : Plc} (created : Plc.new contract = .ok plc) :
    plc.setpointSignal ∈ contract.signals := by
  simp only [Plc.new,bind_eq_ok] at created
  obtain ⟨_,found,_,_,_,_,_,_,_,_,_,_,done⟩ := created
  cases done
  exact byName_mem found

/-- The parameters are apart from the register of the command's number. -/
theorem parameters_apart {plc : Plc} (runnable : Runnable plc.contract) (created : Plc.new plc.contract = .ok plc)
    (parameters : Parameters plc) {a : ℤ} (inCommand : a ∈ plc.contract.commandBlock.span) :
    a ∉ plc.setpointSignal.modbus.span ∧ a ∉ plc.rampSignal.modbus.span := by
  have apart := (blocks_apart runnable).2
  obtain ⟨_,built⟩ := new_built created
  refine ⟨fun inside => ?_,fun inside => ?_⟩
  · exact (apart _ (new_setpoint created) parameters.setpoint).1.not_mem inside inCommand
  · exact (apart _ built.ramp parameters.ramp).1.not_mem inside inCommand

section
variable {plc : Plc} (runnable : Runnable plc.contract) (built : Built plc) {s : PlcState} {holding : Registers}
  (hHolding : s.memory .holding = some holding) {r : Regs} (before : regs plc s = some r)
include runnable built hHolding before

/-- The state without the command differs in one register of the command block. -/
theorem withoutCommand_put : ∃ a m, a ∈ plc.contract.commandBlock.span ∧ s.memory.put .holding a r.ackSeq = .ok m ∧
    m .holding = some (holding.set a r.ackSeq) ∧ withoutCommand plc s = .ok { s with memory := m } ∧
    regs plc { s with memory := m } = some { r with seq := r.ackSeq } := by
  obtain ⟨code,seq,ackSeq,ackResult,hCode,hSeq,hAckSeq,hAckResult,_,inCode,inSeq,inAckSeq,inAckResult⟩ :=
    fields_exist runnable built
  obtain ⟨h₁,_,h₃,h₄⟩ := (regs_eq_some hCode hSeq hAckSeq hAckResult).mp before
  set a := plc.contract.commandBlock.base + (seq : ℤ) with here
  have put : s.memory.put .holding a r.ackSeq =
      .ok (Function.update s.memory .holding (some (holding.set a r.ackSeq))) := by simp [Memory.put,hHolding]
  refine ⟨a,_,inSeq,put,by simp,?_,?_⟩
  · simp [withoutCommand,lookup,hAckSeq,h₃,hSeq,← here,put,bind,Except.bind,pure,Except.pure]
  · have away {b : ℤ} (inAck : b ∈ plc.contract.ackBlock.span) : b ≠ a := by
      rintro rfl
      exact (blocks_apart runnable).1.not_mem inSeq inAck
    have other : plc.contract.commandBlock.base + (code : ℤ) ≠ a := by
      have different := field_ne (built.cmdIdx ▸ hCode) (built.cmdIdx ▸ hSeq) (by decide)
      omega
    rw [regs_eq_some hCode hSeq hAckSeq hAckResult]
    simp only [Memory.put_ok put,true_and,other,away inAckSeq,away inAckResult,← here,if_true,if_false]
    exact ⟨h₁,h₃,h₄⟩

end

/-- What `execute` puts out for a pending command; the acknowledgement goes to the ack block. -/
theorem execute_pending {plc : Plc} (built : Built plc) {image : InputImage} {out : OutputImage} {command : Command}
    (executed : execute plc image = .ok out) (read : readCommand plc image = .ok command)
    (pending : command.seq ≠ command.lastAckSeq) : ∃ signals ack, computeSignals plc image = .ok signals ∧
      (∀ u ∈ ack, u.1 = plc.contract.ackBlock.table ∧ u.2.1 ∈ plc.contract.ackBlock.span) ∧
      out = { (runCommand image command.code signals).2 with memoryUpdates := signals.memoryUpdates ++ ack } := by
  obtain ⟨signals,command',hSignals,hCommand,cases⟩ := execute_cases executed
  cases hCommand.symm.trans read
  rcases cases with ⟨idle,_⟩ | ⟨_,resultIdx,seqIdx,hResult,hSeq,rfl⟩
  · exact absurd idle pending
  · refine ⟨signals,_,hSignals,fun u member => ?_,rfl⟩
    obtain ⟨table,result | number⟩ := ackUpdates_mem member
    · rw [result]
      exact ⟨table,field_mem (built.ackIdx ▸ hResult)⟩
    · rw [number]
      exact ⟨table,field_mem (built.ackIdx ▸ hSeq)⟩

theorem execute_idle {plc : Plc} {image : InputImage} {signals : OutputImage} {command : Command}
    (computed : computeSignals plc image = .ok signals) (read : readCommand plc image = .ok command)
    (idle : command.seq = command.lastAckSeq) : execute plc image = .ok signals := by
  simp [execute,computed,read,idle,bind,Except.bind,pure,Except.pure]

/-! ### The two scans side by side -/

/-- A register of the command block or of the ack block. -/
def InBlocks (plc : Plc) (t : Table) (a : ℤ) : Prop :=
  t = .holding ∧ (a ∈ plc.contract.commandBlock.span ∨ a ∈ plc.contract.ackBlock.span)

/-- Updates leave the same at an address where the memories are the same and that later
    updates of one of them do not name. -/
theorem update_congr {m m' memory memory' : Memory} {updates later : List (Table × ℤ × ℕ)}
    (updated : m.update (updates ++ later) = .ok memory) (updated' : m'.update updates = .ok memory') {t : Table} {a : ℤ}
    (same : m'.get t a = m.get t a) (absent : ∀ w, (t,a,w) ∉ later) : memory.get t a = memory'.get t a := by
  have kept : cells m' (t,a) = cells m (t,a) := same
  calc memory.get t a
    _ = overlay (cells m) (patch (updates ++ later)) (t,a) := congrFun (cells_update updated) (t,a)
    _ = overlay (cells m) (patch updates) (t,a) := by
      rw [patch_append,← overlay_assoc,overlay_none (patch_none absent)]
    _ = overlay (cells m') (patch updates) (t,a) := by simp only [overlay,kept]
    _ = memory'.get t a := (congrFun (cells_update updated') (t,a)).symm

/-- Before the machines step the scans with and without the command differ by its change,
    when the machines permit it, and in the two blocks. -/
theorem scanOutputs_without {plc : Plc} (runnable : Runnable plc.contract) (created : Plc.new plc.contract = .ok plc)
    (parameters : Parameters plc) {s ps : PlcState} (written : scanOutputs plc s = .ok ps) {r : Regs}
    (before : regs plc s = some r) (pending : r.seq ≠ r.ackSeq) :
    ∃ t p, withoutCommand plc s = .ok t ∧ scanOutputs plc t = .ok p ∧
      (Permits p r.code ↔ Permits s r.code) ∧
      (Permits s r.code → { ps with memory := p.memory } = applyCommand r.code p) ∧
      (¬ Permits s r.code → { ps with memory := p.memory } = p) ∧
      ∀ table a, ¬ InBlocks plc table a → ps.memory.get table a = p.memory.get table a := by
  obtain ⟨_,built⟩ := new_built created
  obtain ⟨holding,out,memory,hHolding,executed,updated,rfl⟩ := scanOutputs_ok.mp written
  obtain ⟨signals,ack,hSignals,inAck,rfl⟩ := execute_pending built executed
    (readCommand_regs runnable built hHolding before) pending
  -- Without the command the same signals are computed, and nothing else is put out.
  obtain ⟨a,m,inCommand,put,mapped,without,after⟩ := withoutCommand_put runnable built hHolding before
  obtain ⟨setpoint,ramp⟩ := parameters_apart runnable created parameters inCommand
  have computed := (computeSignals_set r.ackSeq setpoint ramp m).trans hSignals
  have idle := execute_idle computed (readCommand_regs runnable built mapped after) rfl
  obtain ⟨memory',updated'⟩ : ∃ memory', m.update signals.memoryUpdates = .ok memory' := by
    refine Memory.update_exists fun u member => ?_
    rw [put_tables put]
    exact (update_tables updated).2 u (List.mem_append_left _ member)
  obtain ⟨running,start,reset⟩ := computeSignals_asks hSignals
  refine ⟨_,_,without,scanOutputs_ok.mpr ⟨_,signals,memory',mapped,idle,updated',rfl⟩,?_,?_,?_,?_⟩
  · simp [Permits,commanded,start,reset]
  · intro permitted
    have machines := runCommand_permitted holding permitted running start reset
      { memory := memory', conveyor := (commanded s signals).1, cnc := (commanded s signals).2 } rfl
    rw [applyCommand_eq]
    exact congrArg (fun m : Conveyor × Cnc => ({ memory := memory', conveyor := m.1, cnc := m.2 } : PlcState)) machines
  · intro refused
    have machines : commanded s (runCommand (snapshot s holding) r.code signals).2 = commanded s signals := by
      rw [runCommand_refused holding refused]
    exact congrArg (fun m : Conveyor × Cnc => ({ memory := memory', conveyor := m.1, cnc := m.2 } : PlcState)) machines
  · intro table b outside
    refine update_congr updated updated' ?_ fun w member => outside ?_
    · have other : ¬ (table = .holding ∧ b = a) := by
        rintro ⟨rfl,rfl⟩
        exact outside ⟨rfl,.inl inCommand⟩
      rw [Memory.put_ok put,if_neg other]
    · obtain ⟨here,inside⟩ := inAck _ member
      exact ⟨here.trans runnable.ackTable,.inr inside⟩

/-- What a scan's result is to mean: which codes get it, and how the scan compares with the
    one without the command, whose machines step from `p` to `q`. -/
structure Tells (plc : Plc) (dt : ℚ) (r : Regs) (s s' p q : PlcState) (result : AckResult) : Prop where
  ok : result = .ok ↔ Permits s r.code
  range : result = .range ↔ ¬ Known r.code
  state : result = .state ↔ Known r.code ∧ ¬ Permits s r.code
  applied : result = .ok → stepMachines (applyCommand r.code p) dt = .ok { s' with memory := q.memory }
  ignored : result = .state ∨ result = .range → { s' with memory := q.memory } = q
  elsewhere : ∀ table a, ¬ InBlocks plc table a → s'.memory.get table a = q.memory.get table a

theorem executes_result {plc : Plc} {s : PlcState} {e : Execution} (executed : executes plc s = some e) :
    ∃ holding, e.result = (runCommand (snapshot s holding) e.code {}).1 := by
  unfold executes at executed
  split at executed
  case h_2 => cases executed
  case h_1 image t inputs =>
    obtain ⟨holding,_,rfl,_⟩ := readInputs_ok.mp inputs
    split at executed
    case h_2 => cases executed
    case h_1 command _ =>
      unfold execution at executed
      split_ifs at executed
      cases executed
      exact ⟨holding,rfl⟩

/-- A scan that completes with a pending command acknowledges its number with a result that
    tells what became of the command: beside the scan without it, an accepted command's
    change was made just before the machines stepped, and otherwise there is no difference
    but in the two blocks. -/
theorem acknowledgement_truthful {contract : Contract} {plc : Plc} (runnable : Runnable contract)
    (created : Plc.new contract = .ok plc) (parameters : Parameters plc) {s s' : PlcState} {dt : ℚ}
    (scanned : scan plc s dt = .ok s') {r : Regs} (before : regs plc s = some r) (pending : r.seq ≠ r.ackSeq) :
    ∃ t p q result, withoutCommand plc s = .ok t ∧ scanOutputs plc t = .ok p ∧ stepMachines p dt = .ok q ∧
      scan plc t dt = .ok q ∧ regs plc s' = some { r with ackSeq := r.seq, ackResult := result.toNat } ∧
      Tells plc dt r s s' p q result := by
  obtain ⟨rfl,built⟩ := new_built created
  obtain ⟨idle,_⟩ | ⟨result,_,executed,after⟩ := scan_regs runnable built scanned before
  · exact absurd idle pending
  · obtain ⟨holding,decided⟩ := executes_result executed
    obtain ⟨ok,range,state⟩ := runCommand_result holding s r.code {}
    rw [← decided] at ok range state
    rw [scan_eq] at scanned
    obtain ⟨ps,written,stepped⟩ := bind_eq_ok.mp scanned
    obtain ⟨t,p,without,quiet,permits,permitted,refused,elsewhere⟩ :=
      scanOutputs_without runnable created parameters written before pending
    have same := stepMachines_memory stepped p.memory
    obtain ⟨q,completes⟩ : ∃ q, stepMachines p dt = .ok q := by
      by_cases possible : Permits s r.code
      · exact stepMachines_without (permits.mpr possible) (permitted possible ▸ same)
      · exact ⟨_,refused possible ▸ same⟩
    have memory : q.memory = p.memory := stepped_memory completes
    have scans : scan plc t dt = .ok q := by
      rw [scan_eq]
      exact bind_eq_ok.mpr ⟨p,quiet,completes⟩
    refine ⟨t,p,q,result,without,quiet,completes,scans,after,ok,range,state,?_,?_,?_⟩
    · intro accepted
      rw [memory,← permitted (ok.mp accepted)]
      exact same
    · intro rejected
      have impossible : ¬ Permits s r.code := by
        intro possible
        rcases rejected with isState | isRange
        · exact (state.mp isState).2 possible
        · cases isRange.symm.trans (ok.mpr possible)
      rw [refused impossible] at same
      rw [memory]
      exact Except.ok.inj (same.symm.trans completes)
    · rw [memory,stepped_memory stepped]
      exact elsewhere

theorem shipped_parameters : Parameters Shipped.plc := ⟨rfl,rfl⟩

/-- The start of the conveyor. -/
theorem start_acknowledged : ∃ s s' t p q result, run (step Shipped.plc) Shipped.booted [.write 16 100 [1,0,0,1]] = some s ∧
    scan Shipped.plc s (1 / 100) = .ok s' ∧ withoutCommand Shipped.plc s = .ok t ∧
    scanOutputs Shipped.plc t = .ok p ∧ stepMachines p (1 / 100) = .ok q ∧ result = .ok ∧
    Tells Shipped.plc (1 / 100) ⟨1,1,0,0⟩ s s' p q result := by
  obtain ⟨s',last⟩ := Option.isSome_iff_exists.mp
    (by decide +kernel : (run (step Shipped.plc) Shipped.booted ([.write 16 100 [1,0,0,1]] ++ [.scan (1 / 100)])).isSome)
  obtain ⟨s,reached,moved⟩ := run_concat.mp last
  have scanned := toOption_eq_ok.mp moved
  have ready : (run (step Shipped.plc) Shipped.booted [.write 16 100 [1,0,0,1]]).map
      (fun s => (regs Shipped.plc s,s.conveyor.fault)) = some (some ⟨1,1,0,0⟩,false) := by decide +kernel
  rw [reached,Option.map_some,Option.some.injEq,Prod.mk.injEq] at ready
  obtain ⟨t,p,q,result,without,quiet,stepped,_,_,tells⟩ := acknowledgement_truthful tags_runnable Shipped.new_tags
    shipped_parameters scanned ready.1 (by decide)
  exact ⟨s,s',t,p,q,result,reached,scanned,without,quiet,stepped,tells.ok.mpr (.inl ⟨rfl,ready.2⟩),tells⟩

end MockPlant.CommandEffects
