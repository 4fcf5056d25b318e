import MockPlant.Publications

/-!
Values that clients write. The setter takes the one exception of packing an integer out
of range for a refusal. The exceptions of rounding what is not finite, be it the value or
its quotient by the scale, and of packing a float too large for binary32 are not caught.
-/
namespace MockPlant.ClientValues
open MockPlant.Python MockPlant.Contract MockPlant.Codec MockPlant.Marks MockPlant.GatewayServer MockPlant.Publications
open MockPlant.Rounding

/-- Words of an integer register that are read back to within half a scale step of the value. -/
def Near (mapping : ModbusMapping) (value : Value) (metadata : Meta) (words : List ℕ) : Prop :=
  (intBounds mapping.type).isSome → ∃ v x r, value.toFloat.rat? = some v ∧
    decodeDouble mapping words metadata = .ok (.float x) ∧ x.rat? = some r ∧ |r - v| ≤ |mapping.scale| / 2

/-! ### What encoding comes to -/

section
variable {mapping : ModbusMapping} (metadata : Meta) (nonzero : mapping.scale ≠ 0)
include nonzero

end

/-! ### The setter -/

section
variable {ν : Type} [DecidableEq ν] (gateway : Gateway ν)

/-- The call raises the refusal, starts no push and leaves the values of the nodes alone. -/
def Refused (s : State ν) (call : State ν × Except PyError Unit) : Prop :=
  call.2 = .error badOutOfRange ∧ call.1.values = s.values ∧ call.1.pushes = s.pushes

/-- The call stores the value and starts one push, of words of the register's type that an
    integer register is read back from near the value. -/
def Delivered (s : State ν) (signal : Signal) (datavalue : DataValue) (value : Value)
    (call : State ν × Except PyError Unit) : Prop :=
  call.2 = .ok () ∧ call.1.values = (s.store (gateway.nodeId signal) datavalue).values ∧
    ∃ words, call.1.pushes = s.pushes ++ [⟨signal,words⟩] ∧ IsWords signal.modbus.type words ∧
      Near signal.modbus value gateway.contract.metadata words

variable (s : State ν) {signal : Signal} (listed : signal ∈ gateway.contract.signals)
  (marked : gateway.nodeId signal ∈ s.externalWrites) {polled : List ℕ}
  (confirmed : s.lastWords signal.name = some polled) {datavalue : DataValue} {value : Value}
  (held : datavalue.value = some (.plain value))
include listed marked confirmed held

end

/-! ### The shipped contract -/

def setpointNode : String := "s=Conveyor1.SpeedSetpoint"

/-- The gateway after a good poll of the setpoint and a client's request to write it. -/
def requested : State String :=
  markExternalWrite (publish shippedGateway {} (setpointReading (some ([1500],.float (.fin (3 / 2)))))).1 true
    [setpointNode]

def written (x : PyFloat) : DataValue := { value := some (.plain (.float x)) }

end MockPlant.ClientValues
