import MockPlant.Plc

/-!
The contract in `config/tags.yaml` and the machines that the PLC process boots with.
-/
namespace MockPlant.Shipped
open MockPlant.Python MockPlant.Contract MockPlant.Machine MockPlant.ModbusServer MockPlant.Plc

def metadata : Meta := ⟨.highFirst,.big,10⟩

def speedSetpoint : Signal where
  name := "Conveyor1.SpeedSetpoint"
  modbus := { table := .holding, addr := 10, type := .uint16, scale := 1 / 1000 }
  opcua := { id := "s=Conveyor1.SpeedSetpoint", access := "RW", type := some "Double" }

def rampTime : Signal where
  name := "Conveyor1.RampTime"
  modbus := { table := .holding, addr := 12, type := .float32 }
  opcua := { id := "s=Conveyor1.RampTime", access := "RW", type := some "Float" }

def actualSpeed : Signal where
  name := "Conveyor1.ActualSpeed"
  modbus := { table := .input, addr := 20, type := .uint16, scale := 1 / 1000 }
  opcua := { id := "s=Conveyor1.ActualSpeed", access := "RO", type := some "Double" }

def position : Signal where
  name := "Conveyor1.Position"
  modbus := { table := .input, addr := 30, type := .float32 }
  opcua := { id := "s=Conveyor1.Position", access := "RO", type := some "Float" }

def cncStates : List (ℤ × String) :=
  [(0,"Idle"),(1,"Homing"),(2,"Loading"),(3,"Running"),(4,"Unloading"),(5,"Fault")]

def cncState : Signal where
  name := "Cnc.State"
  modbus := { table := .input, addr := 40, type := .uint16 }
  opcua := { id := "s=Cnc.State", access := "RO", states := some cncStates }

def tags : Contract where
  metadata := metadata
  signals := [speedSetpoint,rampTime,actualSpeed,position,cncState]
  commandBlock := { name := "command_block", base := 100, layout := ["cmd_code","arg0_lo","arg0_hi","seq"] }
  ackBlock := { name := "ack_block", base := 110, layout := ["ack_seq","ack_result"] }

def conveyor : Conveyor where
  rampTime := .fin (1 / 2)
  maxSpeed := 2

/-- `CNC_DURATIONS`. -/
def cncDurations : CncState → Option ℚ
  | .homing | .loading | .running | .unloading => some (3 / 10)
  | .idle | .fault => none

def cnc : Cnc where
  durations := cncDurations

/-- The PLC that construction makes of the contract, whatever the machines. -/
def plc : Plc := (Plc.new tags).toOption.get (by decide +kernel)

theorem new_tags : Plc.new tags = .ok plc := toOption_eq_ok.mp (Option.some_get _).symm

def initialMemory : Memory := (initRegisters plc conveyor.rampTime).toOption.get (by decide +kernel)

/-- The state that its process starts in. -/
def booted : PlcState where
  memory := initialMemory
  conveyor := conveyor
  cnc := cnc

theorem boot_booted : boot tags conveyor cnc = .ok (plc,booted) := by
  have seeded : initRegisters plc conveyor.rampTime = .ok initialMemory := toOption_eq_ok.mp (Option.some_get _).symm
  exact boot_ok.mpr ⟨new_tags,initialMemory,seeded,rfl⟩

/-- The shipped contract boots into this PLC with any machines. -/
theorem boot_tags {conveyor : Conveyor} {cnc : Cnc} {built : Plc} {s : PlcState}
    (booted : boot tags conveyor cnc = .ok (built,s)) : built = plc :=
  Except.ok.inj ((boot_ok.mp booted).1.symm.trans new_tags)

end MockPlant.Shipped
