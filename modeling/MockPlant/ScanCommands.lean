import MockPlant.Runs
import MockPlant.Shipped

/-!
What a scan does to the command and ack blocks. On a contract that passes the
loader's checks no published signal shares a register with either block, so a scan
leaves the command block alone and moves the ack block exactly as the pending
command asks. Over a run the executed commands are the scans whose number differs
from the one before.
-/
namespace MockPlant.ScanCommands
open MockPlant.Python MockPlant.Contract MockPlant.Codec MockPlant.Machine MockPlant.ModbusServer MockPlant.Plc
open MockPlant.Runs

/-! ### The contracts a PLC runs on -/

theorem layoutIdx_getElem {layout : List String} {name : String} {i : ℕ} (found : layoutIdx layout name = some i) :
    layout[i]? = some name := by
  induction layout generalizing i with
  | nil => simp [layoutIdx] at found
  | cons field rest ih =>
    simp only [layoutIdx] at found
    cases later : layoutIdx rest name with
    | some j =>
      simp only [later,Option.some.injEq] at found
      subst found
      simpa using ih later
    | none =>
      simp only [later] at found
      split_ifs at found with same
      cases found
      simp [same]

theorem layoutIdx_isSome {layout : List String} {name : String} (listed : name ∈ layout) :
    ∃ i, layoutIdx layout name = some i := by
  induction layout with
  | nil => simp at listed
  | cons field rest ih =>
    cases later : layoutIdx rest name with
    | some j => exact ⟨j + 1,by simp [layoutIdx,later]⟩
    | none =>
      rcases List.mem_cons.mp listed with rfl | inRest
      · exact ⟨0,by simp [layoutIdx,later]⟩
      · obtain ⟨j,found⟩ := ih inRest
        rw [found] at later
        cases later

/-- A contract that loading accepts, with the fields of the blocks that the PLC
    looks up. Loading puts both blocks in the holding table. -/
structure Runnable (contract : Contract) : Prop where
  valid : validate contract = .ok ()
  commandTable : contract.commandBlock.table = .holding
  ackTable : contract.ackBlock.table = .holding
  codeField : "cmd_code" ∈ contract.commandBlock.layout
  seqField : "seq" ∈ contract.commandBlock.layout
  ackSeqField : "ack_seq" ∈ contract.ackBlock.layout
  ackResultField : "ack_result" ∈ contract.ackBlock.layout

theorem tags_runnable : Runnable Shipped.tags := by
  constructor <;> decide +kernel

/-- What construction takes from the contract. -/
structure Built (plc : Plc) : Prop where
  actual : plc.actualSignal ∈ plc.contract.signals
  position : plc.positionSignal ∈ plc.contract.signals
  cncState : plc.cncStateSignal ∈ plc.contract.signals
  ramp : plc.rampSignal ∈ plc.contract.signals
  cmdIdx : plc.cmdIdx = layoutIdx plc.contract.commandBlock.layout
  ackIdx : plc.ackIdx = layoutIdx plc.contract.ackBlock.layout

theorem byName_mem {signals : List Signal} {name : String} {s : Signal} (found : byName signals name = .ok s) :
    s ∈ signals := by
  have listed := List.mem_of_find?_eq_some (lookup_eq_ok.mp found)
  exact List.mem_reverse.mp listed

theorem new_built {contract : Contract} {plc : Plc} (built : Plc.new contract = .ok plc) :
    plc.contract = contract ∧ Built plc := by
  simp only [Plc.new,bind_eq_ok] at built
  obtain ⟨_,_,actual,hActual,ramp,hRamp,position,hPosition,cncState,hState,codes,_,done⟩ := built
  cases done
  exact ⟨rfl,byName_mem hActual,byName_mem hPosition,byName_mem hState,byName_mem hRamp,rfl,rfl⟩

theorem shipped_built : Built Shipped.plc := (new_built Shipped.new_tags).2

theorem shipped_runnable : Runnable Shipped.plc.contract := tags_runnable

/-- In the holding table both blocks are apart from each other and from every signal. -/
theorem blocks_apart {contract : Contract} (runnable : Runnable contract) :
    Apart contract.commandBlock.span contract.ackBlock.span ∧
      ∀ s ∈ contract.signals, s.modbus.table = .holding →
        Apart s.modbus.span contract.commandBlock.span ∧ Apart s.modbus.span contract.ackBlock.span := by
  have apart := entries_apart (validate_ok runnable.valid).2.2.1
  simp only [Contract.entries,List.pairwise_append,List.pairwise_cons,List.mem_cons,List.not_mem_nil,or_false,
    forall_eq,List.mem_map,forall_exists_index,and_imp,forall_apply_eq_imp_iff₂,runnable.commandTable,
    runnable.ackTable] at apart
  obtain ⟨_,⟨blocks,_⟩,signals⟩ := apart
  refine ⟨blocks trivial,fun s member holding => ⟨?_,?_⟩⟩
  · exact signals s member _ (.inl rfl) holding
  · exact signals s member _ (.inr rfl) holding

/-! ### The registers of the two blocks -/

/-- The four registers of the command handshake. -/
structure Regs where
  code : ℕ
  seq : ℕ
  ackSeq : ℕ
  ackResult : ℕ
deriving DecidableEq, Repr

/-- The holding register of a block's field. -/
def fieldReg (s : PlcState) (base : ℤ) (idx : Option ℕ) : Option ℕ :=
  idx.bind (fun i => s.memory.get .holding (base + i))

def regs (plc : Plc) (s : PlcState) : Option Regs := do
  let code ← fieldReg s plc.contract.commandBlock.base (plc.cmdIdx "cmd_code")
  let seq ← fieldReg s plc.contract.commandBlock.base (plc.cmdIdx "seq")
  let ackSeq ← fieldReg s plc.contract.ackBlock.base (plc.ackIdx "ack_seq")
  let ackResult ← fieldReg s plc.contract.ackBlock.base (plc.ackIdx "ack_result")
  pure { code, seq, ackSeq, ackResult }

theorem regs_eq_some {plc : Plc} {code seq ackSeq ackResult : ℕ} (hCode : plc.cmdIdx "cmd_code" = some code)
    (hSeq : plc.cmdIdx "seq" = some seq) (hAckSeq : plc.ackIdx "ack_seq" = some ackSeq)
    (hAckResult : plc.ackIdx "ack_result" = some ackResult) {s : PlcState} {r : Regs} :
    regs plc s = some r ↔
      s.memory.get .holding (plc.contract.commandBlock.base + code) = some r.code ∧
      s.memory.get .holding (plc.contract.commandBlock.base + seq) = some r.seq ∧
      s.memory.get .holding (plc.contract.ackBlock.base + ackSeq) = some r.ackSeq ∧
      s.memory.get .holding (plc.contract.ackBlock.base + ackResult) = some r.ackResult := by
  simp only [regs,fieldReg,hCode,hSeq,hAckSeq,hAckResult,Option.bind_some,Option.bind_eq_bind,
    Option.bind_eq_some_iff,Option.pure_def,Option.some.injEq]
  constructor
  · rintro ⟨_,h₁,_,h₂,_,h₃,_,h₄,rfl⟩
    exact ⟨h₁,h₂,h₃,h₄⟩
  · rintro ⟨h₁,h₂,h₃,h₄⟩
    exact ⟨_,h₁,_,h₂,_,h₃,_,h₄,rfl⟩

/-- Every register of both blocks is mapped. -/
def BlocksMapped (plc : Plc) (s : PlcState) : Prop :=
  ∀ a, a ∈ plc.contract.commandBlock.span ∨ a ∈ plc.contract.ackBlock.span → (s.memory.get .holding a).isSome

theorem field_mem {block : RegisterBlock} {name : String} {i : ℕ} (found : layoutIdx block.layout name = some i) :
    block.base + i ∈ block.span := by
  have inside := (List.getElem?_eq_some_iff.mp (layoutIdx_getElem found)).1
  simp only [Span.mem_def,RegisterBlock.span]
  omega

/-- Different fields of a block are different registers. -/
theorem field_ne {layout : List String} {name other : String} {i j : ℕ} (one : layoutIdx layout name = some i)
    (two : layoutIdx layout other = some j) (different : name ≠ other) : i ≠ j := by
  rintro rfl
  have same := (layoutIdx_getElem one).symm.trans (layoutIdx_getElem two)
  exact different (Option.some.inj same)

section
variable {plc : Plc} (runnable : Runnable plc.contract) (built : Built plc)
include runnable built

/-- The indices of the four fields. -/
theorem fields_exist : ∃ code seq ackSeq ackResult, plc.cmdIdx "cmd_code" = some code ∧ plc.cmdIdx "seq" = some seq ∧
    plc.ackIdx "ack_seq" = some ackSeq ∧ plc.ackIdx "ack_result" = some ackResult ∧ ackSeq ≠ ackResult ∧
    plc.contract.commandBlock.base + code ∈ plc.contract.commandBlock.span ∧
    plc.contract.commandBlock.base + seq ∈ plc.contract.commandBlock.span ∧
    plc.contract.ackBlock.base + ackSeq ∈ plc.contract.ackBlock.span ∧
    plc.contract.ackBlock.base + ackResult ∈ plc.contract.ackBlock.span := by
  obtain ⟨code,hCode⟩ := layoutIdx_isSome runnable.codeField
  obtain ⟨seq,hSeq⟩ := layoutIdx_isSome runnable.seqField
  obtain ⟨ackSeq,hAckSeq⟩ := layoutIdx_isSome runnable.ackSeqField
  obtain ⟨ackResult,hAckResult⟩ := layoutIdx_isSome runnable.ackResultField
  refine ⟨code,seq,ackSeq,ackResult,?_,?_,?_,?_,field_ne hAckSeq hAckResult (by decide),field_mem hCode,
    field_mem hSeq,field_mem hAckSeq,field_mem hAckResult⟩
  · rw [built.cmdIdx,hCode]
  · rw [built.cmdIdx,hSeq]
  · rw [built.ackIdx,hAckSeq]
  · rw [built.ackIdx,hAckResult]

theorem regs_exist {s : PlcState} (mapped : BlocksMapped plc s) : ∃ r, regs plc s = some r := by
  obtain ⟨code,seq,ackSeq,ackResult,hCode,hSeq,hAckSeq,hAckResult,_,inCode,inSeq,inAckSeq,inAckResult⟩ :=
    fields_exist runnable built
  obtain ⟨w₁,h₁⟩ := Option.isSome_iff_exists.mp (mapped _ (.inl inCode))
  obtain ⟨w₂,h₂⟩ := Option.isSome_iff_exists.mp (mapped _ (.inl inSeq))
  obtain ⟨w₃,h₃⟩ := Option.isSome_iff_exists.mp (mapped _ (.inr inAckSeq))
  obtain ⟨w₄,h₄⟩ := Option.isSome_iff_exists.mp (mapped _ (.inr inAckResult))
  exact ⟨⟨w₁,w₂,w₃,w₄⟩,(regs_eq_some hCode hSeq hAckSeq hAckResult).mpr ⟨h₁,h₂,h₃,h₄⟩⟩

end

/-! ### The parts of a scan -/

theorem spanUpdates_mem {mapping : ModbusMapping} {words : List ℕ} {t : Table} {a : ℤ} {w : ℕ}
    (member : (t,a,w) ∈ spanUpdates mapping words) : t = mapping.table ∧ a ∈ mapping.span ∧ w ∈ words := by
  obtain ⟨⟨a',w'⟩,zipped,same⟩ := List.mem_map.mp member
  cases same
  obtain ⟨address,word⟩ := List.of_mem_zip zipped
  exact ⟨rfl,Span.mem_toList.mp address,word⟩

theorem publish_ok {outputs out : OutputImage} {signal : Signal} {value : Value} {metadata : Meta} :
    publish outputs signal value metadata = .ok out ↔ ∃ words, encode signal.modbus value metadata = .ok words ∧
      out = { outputs with memoryUpdates := outputs.memoryUpdates ++ spanUpdates signal.modbus words } := by
  simp only [publish,bind_eq_ok,pure,Except.pure,Except.ok.injEq]
  exact exists_congr fun words => and_congr_right fun _ => eq_comm

/-- What the first half of `execute` needs and what it puts out. -/
theorem computeSignals_ok {plc : Plc} {image : InputImage} {out : OutputImage} :
    computeSignals plc image = .ok out ↔ ∃ setpoint ramp speedWords positionWords code stateWords,
      readSignal image plc.setpointSignal plc.contract.metadata = .ok setpoint ∧
      readSignal image plc.rampSignal plc.contract.metadata = .ok ramp ∧
      encode plc.actualSignal.modbus (.float image.conveyorSpeed) plc.contract.metadata = .ok speedWords ∧
      encode plc.positionSignal.modbus (.float image.conveyorPosition) plc.contract.metadata = .ok positionWords ∧
      plc.cncCodes image.cncState = some code ∧
      encode plc.cncStateSignal.modbus (.int code) plc.contract.metadata = .ok stateWords ∧
      out =
        { memoryUpdates := spanUpdates plc.actualSignal.modbus speedWords ++
            spanUpdates plc.positionSignal.modbus positionWords ++ spanUpdates plc.cncStateSignal.modbus stateWords
          conveyorSpeedSetpoint := some setpoint
          conveyorRampTime := some (PyFloat.pyMin (PyFloat.pyMax ramp RAMP_TIME_MIN) RAMP_TIME_MAX) } := by
  simp only [computeSignals,bind_eq_ok,publish_ok,lookup_eq_ok]
  constructor
  · rintro ⟨setpoint,hSetpoint,ramp,hRamp,_,⟨speedWords,hSpeed,rfl⟩,_,⟨positionWords,hPosition,rfl⟩,code,hCode,
      stateWords,hState,rfl⟩
    exact ⟨setpoint,ramp,speedWords,positionWords,code,stateWords,hSetpoint,hRamp,hSpeed,hPosition,hCode,hState,
      by simp⟩
  · rintro ⟨setpoint,ramp,speedWords,positionWords,code,stateWords,hSetpoint,hRamp,hSpeed,hPosition,hCode,hState,rfl⟩
    exact ⟨setpoint,hSetpoint,ramp,hRamp,_,⟨speedWords,hSpeed,rfl⟩,_,⟨positionWords,hPosition,rfl⟩,code,hCode,
      stateWords,hState,by simp⟩

/-- The signals ask nothing of the machines but the parameters. -/
theorem computeSignals_asks {plc : Plc} {image : InputImage} {signals : OutputImage}
    (computed : computeSignals plc image = .ok signals) :
    signals.conveyorRunning = none ∧ signals.cncStart = false ∧ signals.cncReset = false := by
  obtain ⟨_,_,_,_,_,_,_,_,_,_,_,_,rfl⟩ := computeSignals_ok.mp computed
  exact ⟨rfl,rfl,rfl⟩

/-- A command asks nothing of memory and of the parameters, and its result does not
    depend on the other outputs. -/
theorem runCommand_spec (image : InputImage) (code : ℕ) (outputs : OutputImage) :
    (runCommand image code outputs).2.memoryUpdates = outputs.memoryUpdates ∧
      (runCommand image code outputs).2.conveyorSpeedSetpoint = outputs.conveyorSpeedSetpoint ∧
      (runCommand image code outputs).2.conveyorRampTime = outputs.conveyorRampTime ∧
      (runCommand image code outputs).1 = (runCommand image code {}).1 := by
  unfold runCommand
  split_ifs <;> exact ⟨rfl,rfl,rfl,rfl⟩

/-- The assignments that acknowledge an execution. -/
def ackUpdates (plc : Plc) (resultIdx seqIdx : ℕ) (e : Execution) : List (Table × ℤ × ℕ) :=
  [(plc.contract.ackBlock.table,plc.contract.ackBlock.base + resultIdx,e.result.toNat),
    (plc.contract.ackBlock.table,plc.contract.ackBlock.base + seqIdx,e.seq)]

theorem ackUpdates_mem {plc : Plc} {resultIdx seqIdx : ℕ} {e : Execution} {u : Table × ℤ × ℕ}
    (member : u ∈ ackUpdates plc resultIdx seqIdx e) : u.1 = plc.contract.ackBlock.table ∧
      (u.2 = (plc.contract.ackBlock.base + resultIdx,e.result.toNat) ∨
        u.2 = (plc.contract.ackBlock.base + seqIdx,e.seq)) := by
  simp only [ackUpdates,List.mem_cons,List.not_mem_nil,or_false] at member
  rcases member with rfl | rfl
  · exact ⟨rfl,.inl rfl⟩
  · exact ⟨rfl,.inr rfl⟩

/-- The updates that `execute` puts out: the signals and, for a pending command, its
    acknowledgement. -/
def Acknowledges (plc : Plc) (image : InputImage) (command : Command) (signals out : OutputImage) : Prop :=
  (execution image command = none ∧ out.memoryUpdates = signals.memoryUpdates) ∨
    ∃ e resultIdx seqIdx, execution image command = some e ∧ plc.ackIdx "ack_result" = some resultIdx ∧
      plc.ackIdx "ack_seq" = some seqIdx ∧
      out.memoryUpdates = signals.memoryUpdates ++ ackUpdates plc resultIdx seqIdx e

/-- Everything that `execute` can put out: the signals, and for a pending command what it
    asks of the machines and its acknowledgement. -/
theorem execute_cases {plc : Plc} {image : InputImage} {out : OutputImage} (executed : execute plc image = .ok out) :
    ∃ signals command, computeSignals plc image = .ok signals ∧ readCommand plc image = .ok command ∧
      (command.seq = command.lastAckSeq ∧ out = signals ∨
        command.seq ≠ command.lastAckSeq ∧ ∃ resultIdx seqIdx, plc.ackIdx "ack_result" = some resultIdx ∧
          plc.ackIdx "ack_seq" = some seqIdx ∧
          out = { (runCommand image command.code signals).2 with
            memoryUpdates := signals.memoryUpdates ++ ackUpdates plc resultIdx seqIdx
              ⟨command.code,command.seq,(runCommand image command.code signals).1⟩ }) := by
  simp only [execute,bind_eq_ok] at executed
  obtain ⟨signals,hSignals,command,hCommand,done⟩ := executed
  refine ⟨signals,command,hSignals,hCommand,?_⟩
  split_ifs at done with pending
  · simp only [acknowledge,bind_eq_ok,lookup_eq_ok,pure,Except.pure,Except.ok.injEq] at done
    obtain ⟨resultIdx,hResult,seqIdx,hSeq,rfl⟩ := done
    refine .inr ⟨pending,resultIdx,seqIdx,hResult,hSeq,?_⟩
    simp [ackUpdates,(runCommand_spec image command.code signals).1]
  · cases done
    exact .inl ⟨not_not.mp pending,rfl⟩

theorem execute_ok {plc : Plc} {image : InputImage} {out : OutputImage} (executed : execute plc image = .ok out) :
    ∃ signals command, computeSignals plc image = .ok signals ∧ readCommand plc image = .ok command ∧
      out.conveyorSpeedSetpoint = signals.conveyorSpeedSetpoint ∧ out.conveyorRampTime = signals.conveyorRampTime ∧
      Acknowledges plc image command signals out := by
  obtain ⟨signals,command,hSignals,hCommand,⟨idle,rfl⟩ | ⟨pending,resultIdx,seqIdx,hResult,hSeq,rfl⟩⟩ :=
    execute_cases executed
  · exact ⟨out,command,hSignals,hCommand,rfl,rfl,.inl ⟨if_neg (not_not.mpr idle),rfl⟩⟩
  · obtain ⟨_,setpoint,ramp,result⟩ := runCommand_spec image command.code signals
    refine ⟨signals,command,hSignals,hCommand,setpoint,ramp,.inr ⟨_,resultIdx,seqIdx,if_pos pending,hResult,hSeq,?_⟩⟩
    rw [result]

/-- `execute` completes when its signals and its command can be computed. -/
theorem execute_completes {plc : Plc} {image : InputImage} {signals : OutputImage} {command : Command}
    {resultIdx seqIdx : ℕ} (hSignals : computeSignals plc image = .ok signals)
    (hCommand : readCommand plc image = .ok command) (hResult : plc.ackIdx "ack_result" = some resultIdx)
    (hSeq : plc.ackIdx "ack_seq" = some seqIdx) : ∃ out, execute plc image = .ok out := by
  simp only [execute,bind_eq_ok]
  obtain ⟨acked,hAcked⟩ : ∃ acked, acknowledge plc command.seq (runCommand image command.code signals).1
      (runCommand image command.code signals).2 = .ok acked := by
    simp only [acknowledge,lookup,hResult,hSeq,bind,Except.bind,pure,Except.pure]
    exact ⟨_,rfl⟩
  by_cases pending : command.seq ≠ command.lastAckSeq
  · exact ⟨acked,signals,hSignals,command,hCommand,by rw [if_pos pending]; exact hAcked⟩
  · exact ⟨signals,signals,hSignals,command,hCommand,by rw [if_neg pending]; rfl⟩

/-- The snapshot of a state whose holding table is given. -/
def snapshot (s : PlcState) (holding : Registers) : InputImage where
  holding := holding
  conveyorSpeed := s.conveyor.speed
  conveyorPosition := s.conveyor.position
  conveyorFault := s.conveyor.fault
  cncState := s.cnc.state
  partPulse := s.partPulse

theorem readInputs_ok {s t : PlcState} {image : InputImage} :
    readInputs s = .ok (image,t) ↔
      ∃ holding, s.memory .holding = some holding ∧ image = snapshot s holding ∧ t = { s with partPulse := false } := by
  simp only [readInputs,bind_eq_ok,lookup_eq_ok,pure,Except.pure,Except.ok.injEq,Prod.mk.injEq]
  exact exists_congr fun holding => and_congr_right fun _ => and_congr eq_comm eq_comm

/-- The machines after the outputs, with the clock of the step still to come. -/
def commanded (s : PlcState) (out : OutputImage) : Conveyor × Cnc :=
  ({ s.conveyor with
      running := out.conveyorRunning.getD s.conveyor.running
      speedSetpoint := out.conveyorSpeedSetpoint.getD s.conveyor.speedSetpoint
      rampTime := out.conveyorRampTime.getD s.conveyor.rampTime },
    let cnc := if out.cncStart then s.cnc.start else s.cnc
    if out.cncReset then cnc.reset else cnc)

/-- A scan as the parts that have to complete. -/
theorem scan_ok {plc : Plc} {s s' : PlcState} {dt : ℚ} :
    scan plc s dt = .ok s' ↔ ∃ holding out memory conveyor cnc, s.memory .holding = some holding ∧
      execute plc (snapshot s holding) = .ok out ∧ s.memory.update out.memoryUpdates = .ok memory ∧
      (commanded s out).1.step dt = .ok conveyor ∧ (commanded s out).2.step dt = .ok cnc ∧
      s' = { memory, conveyor, cnc, partPulse := false } := by
  simp only [scan,bind_eq_ok,Prod.exists]
  constructor
  · rintro ⟨image,t,hInputs,out,hExecute,committed,hWrite,conveyor,hConveyor,cnc,hCnc,done⟩
    obtain ⟨holding,hHolding,rfl,rfl⟩ := readInputs_ok.mp hInputs
    obtain ⟨memory,hMemory,same⟩ := bind_eq_ok.mp hWrite
    cases same
    cases done
    exact ⟨holding,out,memory,conveyor,cnc,hHolding,hExecute,hMemory,hConveyor,hCnc,rfl⟩
  · rintro ⟨holding,out,memory,conveyor,cnc,hHolding,hExecute,hMemory,hConveyor,hCnc,rfl⟩
    exact ⟨_,_,readInputs_ok.mpr ⟨holding,hHolding,rfl,rfl⟩,out,hExecute,_,bind_eq_ok.mpr ⟨memory,hMemory,rfl⟩,
      conveyor,hConveyor,cnc,hCnc,rfl⟩

/-- The update of memory that a completed scan commits. -/
theorem scan_memory {plc : Plc} {s s' : PlcState} {dt : ℚ} (scanned : scan plc s dt = .ok s') :
    ∃ holding out, s.memory .holding = some holding ∧ execute plc (snapshot s holding) = .ok out ∧
      s.memory.update out.memoryUpdates = .ok s'.memory := by
  obtain ⟨holding,out,memory,_,_,hHolding,hExecute,hMemory,_,_,rfl⟩ := scan_ok.mp scanned
  exact ⟨holding,out,hHolding,hExecute,hMemory⟩

/-! ### What a scan does to the two blocks -/

section
variable {plc : Plc} (runnable : Runnable plc.contract) (built : Built plc)
include runnable built

/-- No signal is published into a block. -/
theorem signals_spare_blocks {image : InputImage} {signals : OutputImage}
    (computed : computeSignals plc image = .ok signals) {a : ℤ}
    (inBlock : a ∈ plc.contract.commandBlock.span ∨ a ∈ plc.contract.ackBlock.span) :
    ∀ w, (Table.holding,a,w) ∉ signals.memoryUpdates := by
  obtain ⟨_,_,_,_,_,_,_,_,_,_,_,_,rfl⟩ := computeSignals_ok.mp computed
  have spared (s : Signal) (member : s ∈ plc.contract.signals) (words : List ℕ) (w : ℕ) :
      (Table.holding,a,w) ∉ spanUpdates s.modbus words := by
    intro published
    obtain ⟨table,inside,_⟩ := spanUpdates_mem published
    obtain ⟨command,ack⟩ := (blocks_apart runnable).2 s member table.symm
    rcases inBlock with inCommand | inAck
    · exact command.not_mem inside inCommand
    · exact ack.not_mem inside inAck
  intro w member
  simp only [List.mem_append] at member
  rcases member with (speed | position) | state
  · exact spared _ built.actual _ w speed
  · exact spared _ built.position _ w position
  · exact spared _ built.cncState _ w state

theorem readCommand_regs {s : PlcState} {holding : Registers} (mapped : s.memory .holding = some holding)
    {r : Regs} (before : regs plc s = some r) : readCommand plc (snapshot s holding) = .ok ⟨r.code,r.seq,r.ackSeq⟩ := by
  obtain ⟨code,seq,ackSeq,ackResult,hCode,hSeq,hAckSeq,hAckResult,_⟩ := fields_exist runnable built
  obtain ⟨h₁,h₂,h₃,_⟩ := (regs_eq_some hCode hSeq hAckSeq hAckResult).mp before
  simp only [Memory.get,mapped,Option.bind_some] at h₁ h₂ h₃
  simp [readCommand,snapshot,lookup,hCode,hSeq,hAckSeq,h₁,h₂,h₃,bind,Except.bind,pure,Except.pure]

/-- The signals leave both blocks as they are. -/
theorem signals_keep_blocks {image : InputImage} {signals : OutputImage}
    (computed : computeSignals plc image = .ok signals) {m m' : Memory}
    (updated : m.update signals.memoryUpdates = .ok m') {a : ℤ}
    (inBlock : a ∈ plc.contract.commandBlock.span ∨ a ∈ plc.contract.ackBlock.span) :
    m'.get .holding a = m.get .holding a :=
  Memory.update_get updated (signals_spare_blocks runnable built computed inBlock)

omit built in
/-- An acknowledgement is the number and the result, in their registers. -/
theorem ackUpdates_get {resultIdx seqIdx : ℕ} {e : Execution} {m m' : Memory}
    (updated : m.update (ackUpdates plc resultIdx seqIdx e) = .ok m') (a : ℤ) : m'.get .holding a =
      if a = plc.contract.ackBlock.base + seqIdx then some e.seq
      else if a = plc.contract.ackBlock.base + resultIdx then some e.result.toNat
      else m.get .holding a := by
  simp only [ackUpdates,runnable.ackTable,Memory.update,bind_eq_ok] at updated
  obtain ⟨m₁,put₁,m₂,put₂,done⟩ := updated
  cases done
  rw [Memory.put_ok put₂,Memory.put_ok put₁]
  simp

/-- A completed scan leaves the command block alone. It acknowledges the number it
    found there, with the result of the command when the number was pending. -/
theorem scan_regs {s s' : PlcState} {dt : ℚ} (scanned : scan plc s dt = .ok s') {r : Regs}
    (before : regs plc s = some r) :
    (r.seq = r.ackSeq ∧ executes plc s = none ∧ regs plc s' = some r) ∨
      ∃ result, r.seq ≠ r.ackSeq ∧ executes plc s = some ⟨r.code,r.seq,result⟩ ∧
        regs plc s' = some { r with ackSeq := r.seq, ackResult := result.toNat } := by
  obtain ⟨holding,out,hHolding,hExecute,updated⟩ := scan_memory scanned
  obtain ⟨signals,command,hSignals,hCommand,_,_,cases⟩ := execute_ok hExecute
  have found := readCommand_regs runnable built hHolding before
  have same := hCommand.symm.trans found
  cases same
  have runs : executes plc s = execution (snapshot s holding) ⟨r.code,r.seq,r.ackSeq⟩ := by
    simp [executes,readInputs_ok.mpr ⟨holding,hHolding,rfl,rfl⟩,found]
  obtain ⟨code,seq,ackSeq,ackResult,hCode,hSeq,hAckSeq,hAckResult,distinct,inCode,inSeq,inAckSeq,inAckResult⟩ :=
    fields_exist runnable built
  have fields (t : PlcState) (q : Regs) := regs_eq_some hCode hSeq hAckSeq hAckResult (s := t) (r := q)
  obtain ⟨h₁,h₂,h₃,h₄⟩ := (fields s r).mp before
  rcases cases with ⟨idle,same⟩ | ⟨e,resultIdx,seqIdx,pending,hResult,hSeqIdx,same⟩
  · left
    rw [same] at updated
    have kept {a : ℤ} := signals_keep_blocks runnable built hSignals updated (a := a)
    refine ⟨?_,runs.trans idle,?_⟩
    · by_contra different
      simp [execution,different] at idle
    · rw [fields,kept (.inl inCode),kept (.inl inSeq),kept (.inr inAckSeq),kept (.inr inAckResult)]
      exact ⟨h₁,h₂,h₃,h₄⟩
  · right
    rw [hAckSeq,Option.some.injEq] at hSeqIdx
    rw [hAckResult,Option.some.injEq] at hResult
    subst hSeqIdx hResult
    simp only [execution] at pending
    split_ifs at pending with different
    cases pending
    rw [same,Memory.update_append] at updated
    obtain ⟨middle,published,acknowledged⟩ := bind_eq_ok.mp updated
    have final := ackUpdates_get runnable acknowledged
    have away {a : ℤ} (inCommand : a ∈ plc.contract.commandBlock.span) :
        s'.memory.get .holding a = s.memory.get .holding a := by
      have apart := (blocks_apart runnable).1.not_mem inCommand
      have notSeq : a ≠ plc.contract.ackBlock.base + ackSeq := by rintro rfl; exact apart inAckSeq
      have notResult : a ≠ plc.contract.ackBlock.base + ackResult := by rintro rfl; exact apart inAckResult
      rw [final,if_neg notSeq,if_neg notResult,signals_keep_blocks runnable built hSignals published (.inl inCommand)]
    refine ⟨(runCommand (snapshot s holding) r.code {}).1,different,by rw [runs,execution,if_pos different],?_⟩
    have other : ackResult ≠ ackSeq := distinct.symm
    rw [fields,away inCode,away inSeq,final,final]
    exact ⟨h₁,h₂,by simp,by simp [other]⟩

end

/-- A scan never unmaps a register of a block. -/
theorem scan_mapped {plc : Plc} {s s' : PlcState} {dt : ℚ} (scanned : scan plc s dt = .ok s')
    (mapped : BlocksMapped plc s) : BlocksMapped plc s' := by
  obtain ⟨_,_,_,_,updated⟩ := scan_memory scanned
  exact fun a inBlock => Memory.update_isSome updated (mapped a inBlock)

/-! ### Boot -/

theorem zeroRegisters_get (contract : Contract) (t : Table) (a : ℤ) :
    (zeroRegisters contract).get t a = none ∨ (zeroRegisters contract).get t a = some 0 := by
  have mapped (m : Memory) (clear : ∀ t a, m.get t a = none ∨ m.get t a = some 0) (t' : Table) (span : Span) :
      ∀ t a, (m.mapSpan t' span).get t a = none ∨ (m.mapSpan t' span).get t a = some 0 := by
    intro t a
    rw [Memory.mapSpan_get]
    by_cases same : t = t'
    · subst same
      by_cases inside : a ∈ span <;> rcases clear t a with old | old <;> simp [inside,old]
    · rw [if_neg same]
      exact clear t a
  have signals (list : List Signal) (m : Memory) (clear : ∀ t a, m.get t a = none ∨ m.get t a = some 0) :
      ∀ t a, (list.foldl (fun m s => Memory.mapSpan m s.modbus.table s.modbus.span) m).get t a = none ∨
        (list.foldl (fun m s => Memory.mapSpan m s.modbus.table s.modbus.span) m).get t a = some 0 := by
    induction list generalizing m with
    | nil => exact clear
    | cons s rest ih => exact ih _ (mapped m clear _ _)
  simp only [zeroRegisters,List.foldl_cons,List.foldl_nil]
  exact mapped _ (mapped _ (signals _ _ (fun _ _ => .inl rfl)) _ _) _ _ t a

theorem zeroRegisters_blocks {contract : Contract} (runnable : Runnable contract) {a : ℤ}
    (inBlock : a ∈ contract.commandBlock.span ∨ a ∈ contract.ackBlock.span) :
    (zeroRegisters contract).get .holding a = some 0 := by
  rcases zeroRegisters_get contract .holding a with absent | zero
  · simp only [zeroRegisters,List.foldl_cons,List.foldl_nil,Memory.mapSpan_get,runnable.commandTable,
      runnable.ackTable,if_true,Option.or_eq_none_iff] at absent
    rcases inBlock with inCommand | inAck
    · simp [inCommand] at absent
    · simp [inAck] at absent
  · exact zero

/-- A booted PLC has both blocks mapped, at 0: seeding the ramp time spares them. -/
theorem boot_regs {contract : Contract} {conveyor : Conveyor} {cnc : Cnc} {plc : Plc} {s : PlcState}
    (runnable : Runnable contract) (booted : boot contract conveyor cnc = .ok (plc,s)) :
    plc.contract = contract ∧ Built plc ∧ BlocksMapped plc s ∧ regs plc s = some ⟨0,0,0,0⟩ := by
  obtain ⟨created,memory,hMemory,rfl⟩ := boot_ok.mp booted
  obtain ⟨rfl,built⟩ := new_built created
  simp only [initRegisters,bind_eq_ok] at hMemory
  obtain ⟨words,_,updated⟩ := hMemory
  have zero {a : ℤ} (inBlock : a ∈ plc.contract.commandBlock.span ∨ a ∈ plc.contract.ackBlock.span) :
      memory.get .holding a = some 0 := by
    rw [Memory.update_get updated,zeroRegisters_blocks runnable inBlock]
    intro w published
    obtain ⟨table,inside,_⟩ := spanUpdates_mem published
    obtain ⟨command,ack⟩ := (blocks_apart runnable).2 _ built.ramp table.symm
    rcases inBlock with inCommand | inAck
    · exact command.not_mem inside inCommand
    · exact ack.not_mem inside inAck
  obtain ⟨_,_,_,_,hCode,hSeq,hAckSeq,hAckResult,_,inCode,inSeq,inAckSeq,inAckResult⟩ := fields_exist runnable built
  refine ⟨rfl,built,fun a inBlock => by simp [zero inBlock],(regs_eq_some hCode hSeq hAckSeq hAckResult).mpr ?_⟩
  exact ⟨zero (.inl inCode),zero (.inl inSeq),zero (.inr inAckSeq),zero (.inr inAckResult)⟩

/-! ### Runs of scans and writes -/

/-- An action that writes no register of the ack block. -/
def SparesAck (plc : Plc) : PlcAction → Prop
  | .scan _ => True
  | .write funcCode address values =>
    funcTable funcCode = some .holding → Apart (Span.mk address (address + values.length)) plc.contract.ackBlock.span

instance (plc : Plc) : ∀ a : PlcAction, Decidable (SparesAck plc a)
  | .scan _ => inferInstanceAs (Decidable True)
  | .write _ _ _ => inferInstanceAs (Decidable (_ → Apart _ _))

theorem request_mapped {plc : Plc} {s : PlcState} (mapped : BlocksMapped plc s) (funcCode : ℕ) (address : ℤ)
    (values : List ℕ) : BlocksMapped plc (request s funcCode address values) := by
  unfold request
  cases done : setValues s.memory funcCode address values with
  | error e => exact mapped
  | ok memory => exact fun a inBlock => setValues_isSome done (mapped a inBlock)

/-- A request keeps every holding register it does not address. -/
theorem request_get {s : PlcState} {funcCode : ℕ} {address a : ℤ} {values : List ℕ}
    (away : funcTable funcCode = some .holding → a < address ∨ address + values.length ≤ a) :
    (request s funcCode address values).memory.get .holding a = s.memory.get .holding a := by
  unfold request
  cases done : setValues s.memory funcCode address values with
  | error e => rfl
  | ok memory => exact setValues_get done away

theorem request_ack {plc : Plc} (runnable : Runnable plc.contract) (built : Built plc) {s : PlcState} {r : Regs}
    (mapped : BlocksMapped plc s) (before : regs plc s = some r) {funcCode : ℕ} {address : ℤ} {values : List ℕ}
    (spares : SparesAck plc (.write funcCode address values)) :
    ∃ code seq, regs plc (request s funcCode address values) = some { r with code := code, seq := seq } := by
  obtain ⟨after,found⟩ := regs_exist runnable built (request_mapped mapped funcCode address values)
  obtain ⟨_,_,_,_,hCode,hSeq,hAckSeq,hAckResult,_,_,_,inAckSeq,inAckResult⟩ := fields_exist runnable built
  obtain ⟨_,_,old₃,old₄⟩ := (regs_eq_some hCode hSeq hAckSeq hAckResult).mp before
  obtain ⟨_,_,new₃,new₄⟩ := (regs_eq_some hCode hSeq hAckSeq hAckResult).mp found
  have kept {a : ℤ} (inAck : a ∈ plc.contract.ackBlock.span) :
      (request s funcCode address values).memory.get .holding a = s.memory.get .holding a := by
    refine request_get fun holding => ?_
    have outside := (spares holding).symm.not_mem inAck
    simp only [Span.mem_def] at outside
    omega
  rw [kept inAckSeq,old₃,Option.some.injEq] at new₃
  rw [kept inAckResult,old₄,Option.some.injEq] at new₄
  refine ⟨after.code,after.seq,found.trans ?_⟩
  rw [new₃,new₄]

/-- The scans of a run: the state each one snapshots and the state it leaves. -/
def observeScan (s : PlcState) (a : PlcAction) (t : PlcState) : List (PlcState × PlcState) :=
  match a with
  | .scan _ => [(s,t)]
  | .write _ _ _ => []

/-- The number in the last snapshot, 0 before the first scan. -/
def lastSeq (plc : Plc) (scans : List (PlcState × PlcState)) : ℕ :=
  ((scans.getLast?.bind (fun scan => regs plc scan.1)).map (·.seq)).getD 0

/-- The result of the last executed command, 0 before the first one. -/
def lastResult (plc : Plc) (scans : List (PlcState × PlcState)) : ℕ :=
  (((scans.filterMap (fun scan => executes plc scan.1)).getLast?).map (fun e => e.result.toNat)).getD 0

/-- The law of one scan, given the scans before it: it executes its snapshot's
    command exactly when the number is new, and leaves the number acknowledged
    with the result of the last executed command. -/
def ScanLaw (plc : Plc) (earlier : List (PlcState × PlcState)) (before after : PlcState) : Prop :=
  ∃ r, regs plc before = some r ∧ (executes plc before = none ↔ r.seq = lastSeq plc earlier) ∧
    (∀ e, executes plc before = some e → e.code = r.code ∧ e.seq = r.seq) ∧
    regs plc after = some { r with ackSeq := r.seq, ackResult := lastResult plc (earlier ++ [(before,after)]) }

/-- Between scans the ack registers hold the number of the last snapshot and the
    result of the last executed command. -/
private structure AckInvariant (plc : Plc) (scans : List (PlcState × PlcState)) (s : PlcState) : Prop where
  mapped : BlocksMapped plc s
  acked : ∃ r, regs plc s = some r ∧ r.ackSeq = lastSeq plc scans ∧ r.ackResult = lastResult plc scans
  law : ∀ k before after, scans[k]? = some (before,after) → ScanLaw plc (scans.take k) before after

private theorem scan_law {plc : Plc} (runnable : Runnable plc.contract) (built : Built plc)
    {scans : List (PlcState × PlcState)} {s s' : PlcState} {dt : ℚ} (inv : AckInvariant plc scans s)
    (scanned : scan plc s dt = .ok s') : ScanLaw plc scans s s' := by
  obtain ⟨r,before,ackSeq,ackResult⟩ := inv.acked
  rcases scan_regs runnable built scanned before with ⟨same,idle,after⟩ | ⟨result,different,ran,after⟩
  · refine ⟨r,before,⟨fun _ => same.trans ackSeq,fun _ => idle⟩,by simp [idle],after.trans ?_⟩
    have results : lastResult plc (scans ++ [(s,s')]) = r.ackResult := by
      rw [ackResult]
      simp [lastResult,List.filterMap_append,idle]
    rw [results]
    cases r with
    | mk code seq ackSeq ackResult =>
      cases same
      rfl
  · refine ⟨r,before,⟨by simp [ran],fun known => absurd (known.trans ackSeq.symm) different⟩,?_,after.trans ?_⟩
    · intro e executed
      rw [ran] at executed
      cases executed
      exact ⟨rfl,rfl⟩
    · simp [lastResult,List.filterMap_append,ran]

private theorem advance {plc : Plc} (runnable : Runnable plc.contract) (built : Built plc)
    {scans : List (PlcState × PlcState)} {s t : PlcState} {a : PlcAction} (inv : AckInvariant plc scans s)
    (spares : SparesAck plc a) (moved : step plc s a = some t) :
    AckInvariant plc (scans ++ observeScan s a t) t := by
  cases a with
  | write funcCode address values =>
    cases moved
    obtain ⟨r,before,ackSeq,ackResult⟩ := inv.acked
    obtain ⟨code,seq,after⟩ := request_ack runnable built inv.mapped before spares
    simp only [observeScan,List.append_nil]
    exact ⟨request_mapped inv.mapped _ _ _,⟨_,after,ackSeq,ackResult⟩,inv.law⟩
  | scan dt =>
    have scanned := toOption_eq_ok.mp moved
    have law := scan_law runnable built inv scanned
    obtain ⟨r,before,-,-,after⟩ := id law
    refine ⟨scan_mapped scanned inv.mapped,⟨_,after,?_,rfl⟩,?_⟩
    · simp [observeScan,lastSeq,before]
    · intro k first second found
      simp only [observeScan] at found ⊢
      rcases getElem?_concat.mp found with earlier | ⟨rfl,last⟩
      · rw [List.take_append_of_le_length (List.getElem?_eq_some_iff.mp earlier).1.le]
        exact inv.law k first second earlier
      · obtain ⟨rfl,rfl⟩ := Prod.mk.inj last
        rw [List.take_left]
        exact law

/-- Over every run of a booted PLC whose writes spare the ack block, the scans that
    execute are those whose number differs from the number of the scan before. -/
theorem run_executes_new_numbers {contract : Contract} {conveyor : Conveyor} {cnc : Cnc} {plc : Plc} {s₀ : PlcState}
    (runnable : Runnable contract) (booted : boot contract conveyor cnc = .ok (plc,s₀)) {actions : List PlcAction}
    (spares : ∀ a ∈ actions, SparesAck plc a) {s : PlcState} (reached : run (step plc) s₀ actions = some s) :
    let scans := log (step plc) observeScan s₀ actions
    ∀ k before after, scans[k]? = some (before,after) → ScanLaw plc (scans.take k) before after := by
  obtain ⟨rfl,built,mapped,zero⟩ := boot_regs runnable booted
  have start : AckInvariant plc [] s₀ := ⟨mapped,⟨_,zero,rfl,rfl⟩,by simp⟩
  refine (run_induction (P := fun actions s => (∀ a ∈ actions, SparesAck plc a) →
    AckInvariant plc (log (step plc) observeScan s₀ actions) s) (fun _ => start) ?_ actions s reached spares).law
  intro actions s a t before ih moved spares
  have earlier := ih (fun b member => spares b (List.mem_append_left _ member))
  rw [log_concat before moved]
  exact advance runnable built earlier (spares a (by simp)) moved

theorem shipped_executes_new_numbers :
    let scans := log (step Shipped.plc) observeScan Shipped.booted
      [.write 16 100 [1,0,0,7],.scan (1 / 100),.write 16 10 [500],.scan (1 / 100),.write 16 100 [2,0,0,8],.scan (1 / 100)]
    ∀ k before after, scans[k]? = some (before,after) → ScanLaw Shipped.plc (scans.take k) before after :=
  run_executes_new_numbers tags_runnable Shipped.boot_booted (by decide +kernel)
    (Option.eq_some_of_isSome (by decide +kernel))

end MockPlant.ScanCommands
