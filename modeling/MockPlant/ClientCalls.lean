import MockPlant.Resolution
import MockPlant.Validation

/-!
What the client's calls mean to the gateway. A setpoint is refused by the client itself or
is written to the node of its signal, where the gateway has a setter for it; a command calls
the method that invokes its code.
-/
namespace MockPlant.ClientCalls
open MockPlant.Python MockPlant.Contract MockPlant.Plc MockPlant.GatewayServer MockPlant.AddressSpace MockPlant.Resolution
open MockPlant.Validation

section
variable {ν : Type} [DecidableEq ν] (contract : Contract) (found : Found ν)
  (wire : String → PyFloat → Except PyError DataValue)

def stopIteration : PyError := .user "RuntimeError" "coroutine raised StopIteration"

/-- `write_setpoint`: the node that is written, and what comes in for the value as a variant of the
    signal's type. -/
def writeSetpoint (name : String) (value : PyFloat) : Except PyError (ν × DataValue) := do
  match contract.signals.find? (fun s => s.name = name) with
  | none => .error stopIteration
  | some signal =>
    if signal.opcua.access ≠ "RW" then .error .valueError
    else do
      let node ← lookup (found.nodes.lookup name)
      let type ← variantType signal
      let datavalue ← wire type value
      pure (node,datavalue)

/-- `command`: the method that is called. -/
def command (code : CmdCode) : Except PyError ν := lookup (found.methods.lookup (methodName code))

end

section
variable {ν : Type} [DecidableEq ν] {lib : Library ν} {unit : Signal → Option String} {contract : Contract} {b : Built ν}
  {found : Found ν} (wire : String → PyFloat → Except PyError DataValue)

/-- The client takes a value for a setpoint of this name. -/
def Takes (contract : Contract) (wire : String → PyFloat → Except PyError DataValue) (name : String) (value : PyFloat) : Prop :=
  ∃ s ∈ contract.signals, s.name = name ∧ writable s = true ∧
    ∃ type datavalue, variantType s = .ok type ∧ wire type value = .ok datavalue

variable (valid : validate contract = .ok ()) (agrees : Agrees contract b found)
include valid agrees

theorem writeSetpoint_ok {name : String} {value : PyFloat} {node : ν} {datavalue : DataValue} :
    writeSetpoint contract found wire name value = .ok (node,datavalue) ↔
      ∃ s ∈ contract.signals, s.name = name ∧ writable s = true ∧ b.nodeIds.lookup name = some node ∧
        ∃ type, variantType s = .ok type ∧ wire type value = .ok datavalue := by
  have names : (contract.signals.map Signal.name).Nodup := names_distinct (validate_ok valid).2.1
  have kind {s : Signal} {type : String} (typed : variantType s = .ok type) (listed : s ∈ contract.signals) :
      s.opcua.states = none := by
    refine (checkSignalKind_iff.mp (validate_ok valid).2.2.2 s listed).mp ?_
    cases known : s.opcua.type with
    | none => simp [variantType,known] at typed
    | some => rfl
  unfold writeSetpoint
  constructor
  · intro written
    split at written
    · cases written
    case h_2 s first =>
      have listed := List.mem_of_find?_eq_some first
      have same : s.name = name := by simpa using List.find?_some first
      split_ifs at written with access
      obtain ⟨node',known,written⟩ := bind_eq_ok.mp written
      obtain ⟨type,typed,written⟩ := bind_eq_ok.mp written
      obtain ⟨datavalue',taken,written⟩ := bind_eq_ok.mp written
      cases written
      obtain ⟨nodeId,held,recorded,_⟩ := agrees.signal s listed
      rw [same] at held recorded
      cases (lookup_eq_ok.mp known).symm.trans recorded
      exact ⟨s,listed,same,by simp [writable,kind typed listed,not_not.mp access],held,type,typed,taken⟩
  · rintro ⟨s,listed,rfl,settable,held,type,typed,taken⟩
    have first : contract.signals.find? (fun t => t.name = s.name) = some s := by
      cases search : contract.signals.find? (fun t => t.name = s.name) with
      | none =>
        have absent := List.find?_eq_none.mp search s listed
        simp at absent
      | some t =>
        have same : t.name = s.name := by simpa using List.find?_some search
        exact congrArg some (List.inj_on_of_nodup_map names (List.mem_of_find?_eq_some search) listed same)
    obtain ⟨nodeId,held',recorded,_⟩ := agrees.signal s listed
    cases held.symm.trans held'
    have access : s.opcua.access = "RW" := by
      simp only [writable,Bool.and_eq_true,decide_eq_true_eq] at settable
      exact settable.2
    simp [first,access,recorded,typed,taken,lookup,bind,Except.bind,pure,Except.pure]

variable (built : buildAddressSpace lib unit contract = .ok b)
include built

/-- What the client has found, the gateway knows for the same: the node of a signal is where the gateway
    publishes it. A setpoint is written exactly when the signal of its name is one that clients may
    write and the value goes into a variant of its type, and then to a node whose setter is for
    this signal; whatever else is asked of it the client refuses, and writes nothing. And every
    command calls the method that invokes its code. -/
theorem calls_meant : ∃ gateway : Gateway ν, gateway.contract = contract ∧
    (∀ s ∈ contract.signals, GatewayServer.nodeIds gateway s.name = lookup (found.nodes.lookup s.name)) ∧
    (∀ name value, (∃ written, writeSetpoint contract found wire name value = .ok written) ↔ Takes contract wire name value) ∧
    (∀ name value node datavalue, writeSetpoint contract found wire name value = .ok (node,datavalue) →
      ∃ s ∈ contract.signals, s.name = name ∧ GatewayServer.byNodeId gateway node = .ok s ∧ hasSetter gateway node = true ∧
        ∃ type, variantType s = .ok type ∧ wire type value = .ok datavalue) ∧
    ∀ code ∈ codes, ∃ node, command found code = .ok node ∧ b.methods.lookup node = some code := by
  obtain ⟨gateway,rfl,nodes,back,sets⟩ := built_serves valid built
  obtain ⟨laid,_⟩ := built_laid valid built
  refine ⟨gateway,rfl,fun s listed => ?_,fun name value => ?_,?_,fun code listed => ?_⟩
  · obtain ⟨nodeId,held,recorded,_⟩ := agrees.signal s listed
    rw [nodes,held,recorded]
  · constructor
    · rintro ⟨⟨node,datavalue⟩,written⟩
      obtain ⟨s,listed,same,settable,_,type,typed,taken⟩ := (writeSetpoint_ok wire valid agrees).mp written
      exact ⟨s,listed,same,settable,type,datavalue,typed,taken⟩
    · rintro ⟨s,listed,rfl,settable,type,datavalue,typed,taken⟩
      obtain ⟨nodeId,held,_⟩ := agrees.signal s listed
      exact ⟨(nodeId,datavalue),(writeSetpoint_ok wire valid agrees).mpr ⟨s,listed,rfl,settable,held,type,typed,taken⟩⟩
  · intro name value node datavalue written
    obtain ⟨s,listed,rfl,settable,held,type,typed,taken⟩ := (writeSetpoint_ok wire valid agrees).mp written
    have setter : hasSetter gateway node = true := by
      rw [sets,decide_eq_true_eq,laid.setters]
      exact ⟨s,listed,settable,held⟩
    have published : GatewayServer.nodeIds gateway s.name = .ok node := by
      rw [nodes,held]
      rfl
    have own := byNodeId_listed gateway listed
    rw [nodeIds_listed gateway listed,Except.ok.injEq] at published
    exact ⟨s,listed,rfl,published ▸ own,setter,type,typed,taken⟩
  · obtain ⟨node,recorded,bound⟩ := agrees.method code listed
    exact ⟨node,by rw [command,recorded]; rfl,bound⟩

end

/-- The type `Double` carries a value as it is, and `Float` is taken to. -/
def plainWire (type : String) (value : PyFloat) : Except PyError DataValue :=
  if type = "Double" ∨ type = "Float" then .ok { value := some (.plain (.float value)) } else .error .structError

/-- The speed setpoint can be written, and the actual speed and the state of the machine cannot. -/
theorem calls_meant_tags :
    ∃ b found node, buildAddressSpace numbering units Shipped.tags = .ok b ∧
      resolve numbering b.space Shipped.tags {} = .ok found ∧
      (∃ datavalue, writeSetpoint Shipped.tags found plainWire "Conveyor1.SpeedSetpoint" (.fin 1) = .ok (node,datavalue)) ∧
      (∃ gateway : Gateway NodeId, GatewayServer.byNodeId gateway node = .ok Shipped.speedSetpoint ∧
        hasSetter gateway node = true) ∧
      ∀ name ∈ ["Conveyor1.ActualSpeed","Cnc.State","Conveyor2.SpeedSetpoint"], ∀ value,
        ¬ ∃ written, writeSetpoint Shipped.tags found plainWire name value = .ok written := by
  have valid : validate Shipped.tags = .ok () := by decide +kernel
  obtain ⟨b,built⟩ := Option.isSome_iff_exists.mp
    (by decide +kernel : (buildAddressSpace numbering units Shipped.tags).toOption.isSome)
  have built := toOption_eq_ok.mp built
  obtain ⟨found,resolved,agrees⟩ := resolves valid built (by decide +kernel) (by decide +kernel) {}
  obtain ⟨gateway,_,_,writes,meant,_⟩ := calls_meant plainWire valid agrees built
  have settable : Takes Shipped.tags plainWire "Conveyor1.SpeedSetpoint" (.fin 1) :=
    ⟨Shipped.speedSetpoint,by decide +kernel,rfl,by decide +kernel,"Double",_,rfl,rfl⟩
  obtain ⟨⟨node,datavalue⟩,written⟩ := (writes _ _).mpr settable
  obtain ⟨s,listed,same,back,setter,_⟩ := meant _ _ _ _ written
  have names : (Shipped.tags.signals.map Signal.name).Nodup := names_distinct (validate_ok valid).2.1
  cases List.inj_on_of_nodup_map names listed (by decide +kernel : Shipped.speedSetpoint ∈ Shipped.tags.signals) same
  refine ⟨b,found,node,built,resolved,⟨datavalue,written⟩,⟨gateway,back,setter⟩,fun name member value => ?_⟩
  rw [writes name value]
  rintro ⟨s,listed,named,settable,_⟩
  have refused : ∀ s ∈ Shipped.tags.signals, s.name ∈ ["Conveyor1.ActualSpeed","Cnc.State","Conveyor2.SpeedSetpoint"] →
      writable s = false := by decide +kernel
  cases settable.symm.trans (refused s listed (named ▸ member))

end MockPlant.ClientCalls
