import MockPlant.Codec
import MockPlant.Machine
import MockPlant.ModbusServer

/-!
The PLC's scan: snapshot the inputs, compute the outputs from the snapshot alone,
commit them, and step the machines. `Plc` holds the attributes that construction
fixes, `PlcState` those that change.
-/
namespace MockPlant.Plc
open MockPlant.Python MockPlant.Contract MockPlant.Codec MockPlant.Machine MockPlant.ModbusServer
set_option linter.dupNamespace false

def RAMP_TIME_MIN : PyFloat := .fin (1 / 20)
def RAMP_TIME_MAX : PyFloat := .fin 60

/-- `InputImage`: what a scan's logic may read. -/
structure InputImage where
  holding : Registers
  conveyorSpeed : PyFloat
  conveyorPosition : PyFloat
  conveyorFault : Bool
  cncState : CncState
  partPulse : Bool

/-- `OutputImage`: what a scan commits. The updates are the assignments to its
    dictionaries, in order. -/
structure OutputImage where
  memoryUpdates : List (Table × ℤ × ℕ) := []
  conveyorRunning : Option Bool := none
  conveyorSpeedSetpoint : Option PyFloat := none
  conveyorRampTime : Option PyFloat := none
  cncStart : Bool := false
  cncReset : Bool := false

structure Plc where
  contract : Contract
  setpointSignal : Signal
  actualSignal : Signal
  rampSignal : Signal
  positionSignal : Signal
  cncStateSignal : Signal
  cncCodes : CncState → Option ℤ
  cmdIdx : String → Option ℕ
  ackIdx : String → Option ℕ

structure PlcState where
  memory : Memory
  conveyor : Conveyor
  cnc : Cnc
  partPulse : Bool := false

/-- A dictionary lookup. -/
def lookup {α : Type} : Option α → Except PyError α
  | some x => .ok x
  | none => .error .keyError

theorem lookup_eq_ok {α : Type} {o : Option α} {x : α} : lookup o = .ok x ↔ o = some x := by
  cases o <;> simp [lookup]

/-! ### Construction -/

/-- `by_name[name]`, where a later signal of the name replaces an earlier one. -/
def byName (signals : List Signal) (name : String) : Except PyError Signal :=
  lookup (signals.reverse.find? (fun s => s.name = name))

/-- `{CncState(name): code for code, name in states.items()}`. -/
def cncCodesOf : List (ℤ × String) → (CncState → Option ℤ) → Except PyError (CncState → Option ℤ)
  | [], codes => .ok codes
  | (code,name) :: rest, codes =>
    match CncState.ofName? name with
    | none => .error .valueError
    | some state => cncCodesOf rest (Function.update codes state (some code))

/-- `_cnc_codes` from the states of a signal, which a plain variable does not have. -/
def cncCodesFor (signal : Signal) : Except PyError (CncState → Option ℤ) :=
  match signal.opcua.states with
  | none => .error .attributeError
  | some states => cncCodesOf states (fun _ => none)

/-- `{name: i for i, name in enumerate(layout)}`. -/
def layoutIdx : List String → String → Option ℕ
  | [], _ => none
  | field :: rest, name =>
    match layoutIdx rest name with
    | some i => some (i + 1)
    | none => if field = name then some 0 else none

def Plc.new (contract : Contract) : Except PyError Plc := do
  let setpointSignal ← byName contract.signals "Conveyor1.SpeedSetpoint"
  let actualSignal ← byName contract.signals "Conveyor1.ActualSpeed"
  let rampSignal ← byName contract.signals "Conveyor1.RampTime"
  let positionSignal ← byName contract.signals "Conveyor1.Position"
  let cncStateSignal ← byName contract.signals "Cnc.State"
  let cncCodes ← cncCodesFor cncStateSignal
  pure
    { contract, setpointSignal, actualSignal, rampSignal, positionSignal, cncStateSignal, cncCodes
      cmdIdx := layoutIdx contract.commandBlock.layout
      ackIdx := layoutIdx contract.ackBlock.layout }

/-- The registers of every signal and of both blocks, at 0. -/
def zeroRegisters (contract : Contract) : Memory :=
  let signals := contract.signals.foldl (fun m s => Memory.mapSpan m s.modbus.table s.modbus.span) (fun _ => none)
  [contract.commandBlock,contract.ackBlock].foldl (fun m block => Memory.mapSpan m block.table block.span) signals

/-- The assignments that put words into a signal's registers. -/
def spanUpdates (mapping : ModbusMapping) (words : List ℕ) : List (Table × ℤ × ℕ) :=
  (mapping.span.toList.zip words).map (fun entry => (mapping.table,entry.1,entry.2))

/-- `_init_registers`, with the ramp-time register seeded from the machine. -/
def initRegisters (plc : Plc) (rampTime : PyFloat) : Except PyError Memory := do
  let words ← encode plc.rampSignal.modbus (.float rampTime) plc.contract.metadata
  Memory.update (zeroRegisters plc.contract) (spanUpdates plc.rampSignal.modbus words)

/-- `Plc(contract, conveyor, cnc)`. -/
def boot (contract : Contract) (conveyor : Conveyor) (cnc : Cnc) : Except PyError (Plc × PlcState) := do
  let plc ← Plc.new contract
  let memory ← initRegisters plc conveyor.rampTime
  pure (plc,{ memory, conveyor, cnc })

/-- Booting constructs the PLC, fills its registers and takes the machines as they are. -/
theorem boot_ok {contract : Contract} {conveyor : Conveyor} {cnc : Cnc} {plc : Plc} {s : PlcState} :
    boot contract conveyor cnc = .ok (plc,s) ↔ Plc.new contract = .ok plc ∧
      ∃ memory, initRegisters plc conveyor.rampTime = .ok memory ∧ s = { memory, conveyor, cnc } := by
  simp only [boot,bind_eq_ok,pure,Except.pure,Except.ok.injEq,Prod.mk.injEq]
  constructor
  · rintro ⟨_,created,memory,seeded,rfl,rfl⟩
    exact ⟨created,memory,seeded,rfl⟩
  · rintro ⟨created,memory,seeded,rfl⟩
    exact ⟨plc,created,memory,seeded,rfl,rfl⟩

/-! ### The scan -/

/-- `read_inputs`; reading the pulse latch clears it. -/
def readInputs (s : PlcState) : Except PyError (InputImage × PlcState) := do
  let holding ← lookup (s.memory .holding)
  pure
    ({ holding
       conveyorSpeed := s.conveyor.speed
       conveyorPosition := s.conveyor.position
       conveyorFault := s.conveyor.fault
       cncState := s.cnc.state
       partPulse := s.partPulse },{ s with partPulse := false })

/-- The decoded value of a signal in the snapshot. -/
def readSignal (image : InputImage) (signal : Signal) (metadata : Meta) : Except PyError PyFloat := do
  let raw ← signal.modbus.span.toList.mapM (fun a => lookup (image.holding a))
  let value ← decode signal.modbus raw metadata
  pure value.toFloat

def publish (outputs : OutputImage) (signal : Signal) (value : Value) (metadata : Meta) :
    Except PyError OutputImage := do
  let words ← encode signal.modbus value metadata
  pure { outputs with memoryUpdates := outputs.memoryUpdates ++ spanUpdates signal.modbus words }

/-- The first half of `execute`: parameters read from the snapshot, state published. -/
def computeSignals (plc : Plc) (image : InputImage) : Except PyError OutputImage := do
  let metadata := plc.contract.metadata
  let setpoint ← readSignal image plc.setpointSignal metadata
  let ramp ← readSignal image plc.rampSignal metadata
  let outputs : OutputImage :=
    { conveyorSpeedSetpoint := some setpoint
      conveyorRampTime := some (PyFloat.pyMin (PyFloat.pyMax ramp RAMP_TIME_MIN) RAMP_TIME_MAX) }
  let outputs ← publish outputs plc.actualSignal (.float image.conveyorSpeed) metadata
  let outputs ← publish outputs plc.positionSignal (.float image.conveyorPosition) metadata
  let code ← lookup (plc.cncCodes image.cncState)
  publish outputs plc.cncStateSignal (.int code) metadata

/-- The command registers of a snapshot. -/
structure Command where
  code : ℕ
  seq : ℕ
  lastAckSeq : ℕ
deriving DecidableEq

def readCommand (plc : Plc) (image : InputImage) : Except PyError Command := do
  let cb := plc.contract.commandBlock
  let ab := plc.contract.ackBlock
  let codeIdx ← lookup (plc.cmdIdx "cmd_code")
  let code ← lookup (image.holding (cb.base + codeIdx))
  let seqIdx ← lookup (plc.cmdIdx "seq")
  let seq ← lookup (image.holding (cb.base + seqIdx))
  let ackIdx ← lookup (plc.ackIdx "ack_seq")
  let lastAckSeq ← lookup (image.holding (ab.base + ackIdx))
  pure { code, seq, lastAckSeq }

/-- The result of a command and what it asks of the machines. -/
def runCommand (image : InputImage) (code : ℕ) (outputs : OutputImage) : AckResult × OutputImage :=
  if code = CmdCode.start.toNat then
    if image.conveyorFault then (.state,outputs) else (.ok,{ outputs with conveyorRunning := some true })
  else if code = CmdCode.stop.toNat then (.ok,{ outputs with conveyorRunning := some false })
  else if code = CmdCode.cncStart.toNat then
    if image.cncState = .idle then (.ok,{ outputs with cncStart := true }) else (.state,outputs)
  else if code = CmdCode.cncReset.toNat then
    if image.cncState = .fault then (.ok,{ outputs with cncReset := true }) else (.state,outputs)
  else (.range,outputs)

def acknowledge (plc : Plc) (seq : ℕ) (ackResult : AckResult) (outputs : OutputImage) :
    Except PyError OutputImage := do
  let ab := plc.contract.ackBlock
  let resultIdx ← lookup (plc.ackIdx "ack_result")
  let seqIdx ← lookup (plc.ackIdx "ack_seq")
  pure
    { outputs with
      memoryUpdates := outputs.memoryUpdates ++
        [(ab.table,ab.base + resultIdx,ackResult.toNat),(ab.table,ab.base + seqIdx,seq)] }

def execute (plc : Plc) (image : InputImage) : Except PyError OutputImage := do
  let outputs ← computeSignals plc image
  let command ← readCommand plc image
  if command.seq ≠ command.lastAckSeq then
    let (ackResult,outputs) := runCommand image command.code outputs
    acknowledge plc command.seq ackResult outputs
  else pure outputs

def writeOutputs (s : PlcState) (outputs : OutputImage) : Except PyError PlcState := do
  let conveyor :=
    { s.conveyor with
      running := outputs.conveyorRunning.getD s.conveyor.running
      speedSetpoint := outputs.conveyorSpeedSetpoint.getD s.conveyor.speedSetpoint
      rampTime := outputs.conveyorRampTime.getD s.conveyor.rampTime }
  let cnc := if outputs.cncStart then s.cnc.start else s.cnc
  let cnc := if outputs.cncReset then cnc.reset else cnc
  let memory ← Memory.update s.memory outputs.memoryUpdates
  pure { s with memory, conveyor, cnc }

def scan (plc : Plc) (s : PlcState) (dt : ℚ) : Except PyError PlcState := do
  let (image,s) ← readInputs s
  let outputs ← execute plc image
  let s ← writeOutputs s outputs
  let conveyor ← s.conveyor.step dt
  let cnc ← s.cnc.step dt
  pure { s with conveyor, cnc }

/-- The command that the next scan executes, with its result. -/
structure Execution where
  code : ℕ
  seq : ℕ
  result : AckResult
deriving DecidableEq, Repr

def execution (image : InputImage) (command : Command) : Option Execution :=
  if command.seq ≠ command.lastAckSeq then
    some ⟨command.code,command.seq,(runCommand image command.code {}).1⟩
  else none

/-- What a scan from this state executes. -/
def executes (plc : Plc) (s : PlcState) : Option Execution :=
  match readInputs s with
  | .ok (image,_) =>
    match readCommand plc image with
    | .ok command => execution image command
    | .error _ => none
  | .error _ => none

/-! ### Steps of a PLC -/

/-- What changes a PLC: a scan, or a Modbus write request. -/
inductive PlcAction
  | scan (dt : ℚ)
  | write (funcCode : ℕ) (address : ℤ) (values : List ℕ)
deriving DecidableEq

/-- A write request; a refused one changes nothing. -/
def request (s : PlcState) (funcCode : ℕ) (address : ℤ) (values : List ℕ) : PlcState :=
  match setValues s.memory funcCode address values with
  | .ok memory => { s with memory }
  | .error _ => s

/-- A request changes nothing but memory. -/
theorem request_eq (s : PlcState) (funcCode : ℕ) (address : ℤ) (values : List ℕ) :
    request s funcCode address values = { s with memory := (request s funcCode address values).memory } := by
  unfold request
  cases setValues s.memory funcCode address values <;> rfl

/-- A scan is a step when it completes. -/
def step (plc : Plc) (s : PlcState) : PlcAction → Option PlcState
  | .scan dt => (scan plc s dt).toOption
  | .write funcCode address values => some (request s funcCode address values)

end MockPlant.Plc
