import MockPlant.Codec
import MockPlant.Marks
import MockPlant.Runs
import MockPlant.Shipped

/-!
The gateway's OPC UA server, between the poll loop and the clients. Both write a
node's value through the same setter, which takes a write for a client's when a
client's request has marked its node. The mark is put on when the request comes in,
for every item, and taken off by the next setter call for the node, whoever makes it.
-/
namespace MockPlant.GatewayServer
open MockPlant.Python MockPlant.Contract MockPlant.Codec MockPlant.Plc MockPlant.Marks MockPlant.Runs

/-! ### Nodes and values -/

/-- What an OPC UA variant holds: a number, or the text of a state. -/
inductive Variant
  | plain (value : Value)
  | text (name : String)
deriving DecidableEq

inductive Status
  | good
  | badCommunicationError
  | other (code : ℕ)
deriving DecidableEq

structure DataValue where
  value : Option Variant := none
  status : Status := .good
deriving DecidableEq

/-- A server for a loaded contract, with the node that holds each signal's value.
    The address space takes no two nodes of one id. -/
structure Gateway (ν : Type) where
  contract : Contract
  valid : validate contract = .ok ()
  nodeId : Signal → ν
  apart : ∀ s ∈ contract.signals, ∀ t ∈ contract.signals, nodeId s = nodeId t → s = t

/-- The signals whose node gets a value setter: an ordinary variable that clients may write. -/
def writable (signal : Signal) : Bool := signal.opcua.states.isNone && decide (signal.opcua.access = "RW")

structure Push where
  signal : Signal
  words : List ℕ
deriving DecidableEq

/-- A poll of a contract's signal: its registers and their value, or a failure. -/
structure Reading (contract : Contract) where
  signal : Signal
  listed : signal ∈ contract.signals
  result : Option (List ℕ × Value)

/-- `_node_ids[name]` -/
def nodeIds {ν : Type} (gateway : Gateway ν) (name : String) : Except PyError ν := do
  let signal ← byName gateway.contract.signals name
  pure (gateway.nodeId signal)

section
variable {ν : Type} [DecidableEq ν] (gateway : Gateway ν)

/-- `_by_node_id[node]` -/
def byNodeId (node : ν) : Except PyError Signal :=
  lookup (gateway.contract.signals.reverse.find? (fun s => gateway.nodeId s = node))

/-- The nodes that `_add_signal` gives a setter. -/
def hasSetter (node : ν) : Bool :=
  match byNodeId gateway node with
  | .ok signal => writable signal
  | .error _ => false

/-! ### State -/

/-- The state of the server, with the value stored at each node, the pushes started
    and the transitions recorded so far. -/
structure State (ν : Type) where
  externalWrites : Finset ν := ∅
  lastWords : String → Option (List ℕ) := fun _ => none
  lastStateCode : String → Option ℤ := fun _ => none
  values : ν → Option DataValue := fun _ => none
  pushes : List Push := []
  transitions : List (String × ℤ) := []

variable (s : State ν)

def State.store (node : ν) (datavalue : DataValue) : State ν :=
  { s with values := Function.update s.values node (some datavalue) }

/-! ### Writes -/

def badWaitingForInitialData : PyError := .user "BadWaitingForInitialData" ""
def badOutOfRange : PyError := .user "BadOutOfRange" ""

/-- `_mark_external_write` -/
def markExternalWrite (isExternal : Bool) (nodesToWrite : List ν) : State ν :=
  if isExternal then { s with externalWrites := s.externalWrites ∪ nodesToWrite.toFinset } else s

/-- `encode(signal.modbus, datavalue.Value.Value, meta)`. A variant without a value holds `None`;
    like a text it has a truth value, but cannot be divided. -/
def encodeValue (mapping : ModbusMapping) (datavalue : DataValue) (metadata : Meta) : Except PyError (List ℕ) :=
  match datavalue.value with
  | some (.plain value) => encodeDouble mapping value metadata
  | some (.text text) => if mapping.type = .bool then .ok [if text = "" then 0 else 1] else .error .typeError
  | none => if mapping.type = .bool then .ok [0] else .error .typeError

/-- What the setter makes of a client's value. -/
def accept (node : ν) (datavalue : DataValue) : Except PyError Push := do
  let signal ← byNodeId gateway node
  match s.lastWords signal.name with
  | none => .error badWaitingForInitialData
  | some _ =>
    match encodeValue signal.modbus datavalue gateway.contract.metadata with
    | .ok words => .ok ⟨signal,words⟩
    | .error .structError => .error badOutOfRange
    | .error e => .error e

/-- `_set_signal`. What it changes before it raises stays changed. -/
def setSignal (node : ν) (datavalue : DataValue) : State ν × Except PyError Unit :=
  if node ∈ s.externalWrites then
    let taken := { s with externalWrites := s.externalWrites.erase node }
    match accept gateway s node datavalue with
    | .ok push => ({ taken with pushes := s.pushes ++ [push] }.store node datavalue,.ok ())
    | .error e => (taken,.error e)
  else (s.store node datavalue,.ok ())

/-- `write_attribute_value` for the value of a node. -/
def writeAttributeValue (node : ν) (datavalue : DataValue) : State ν × Except PyError Unit :=
  if hasSetter gateway node then setSignal gateway s node datavalue else (s.store node datavalue,.ok ())

/-! ### Publications -/

def badValue : DataValue := { status := .badCommunicationError }

/-- `change_state`: the current state's name, and the transition if there is one. -/
def State.changeState (node : ν) (name : String) (code : ℤ) (state : String) (changed : Bool) : State ν :=
  { s with transitions := if changed then s.transitions ++ [(name,code)] else s.transitions }.store node
    { value := some (.text state) }

/-- `_publish_state` -/
def publishState (name : String) (states : List (ℤ × String)) (result : Option (List ℕ × Value)) :
    State ν × Except PyError Unit :=
  match nodeIds gateway name with
  | .error e => (s,.error e)
  | .ok node =>
    let unknown (s : State ν) := { s with lastStateCode := Function.update s.lastStateCode name none }
    match result with
    | none =>
      writeAttributeValue gateway (unknown { s with lastWords := Function.update s.lastWords name none }) node badValue
    | some (words,value) =>
      let seen := { s with lastWords := Function.update s.lastWords name (some words) }
      match value.toInt with
      | .error e => (seen,.error e)
      | .ok code =>
        match states.lookup code with
        | none => writeAttributeValue gateway (unknown seen) node badValue
        | some state =>
          ({ seen with lastStateCode := Function.update s.lastStateCode name (some code) }.changeState node name code state
            (s.lastStateCode name ≠ some code),.ok ())

/-- `publish` -/
def publish (reading : Reading gateway.contract) : State ν × Except PyError Unit :=
  match reading.signal.opcua.states with
  | some states => publishState gateway s reading.signal.name states reading.result
  | none =>
    match nodeIds gateway reading.signal.name with
    | .error e => (s,.error e)
    | .ok node =>
      let lastWords := Function.update s.lastWords reading.signal.name (reading.result.map (·.1))
      match reading.result with
      | some (_,value) => writeAttributeValue gateway { s with lastWords } node { value := some (.plain value) }
      | none => writeAttributeValue gateway { s with lastWords } node badValue

end

/-! ### The maps between signals and nodes -/

/-- A search from the back for a key that the elements do not share. -/
theorem find?_reverse_key {α β : Type} [DecidableEq β] {l : List α} {key : α → β}
    (apart : ∀ x ∈ l, ∀ y ∈ l, key x = key y → x = y) {x : α} (listed : x ∈ l) :
    l.reverse.find? (fun y => key y = key x) = some x := by
  cases found : l.reverse.find? (fun y => key y = key x) with
  | none =>
    have different := List.find?_eq_none.mp found x (List.mem_reverse.mpr listed)
    simp at different
  | some y =>
    have same : key y = key x := by simpa using List.find?_some found
    rw [apart y (List.mem_reverse.mp (List.mem_of_find?_eq_some found)) x listed same]

section
variable {ν : Type} (gateway : Gateway ν) {signal : Signal}
  (listed : signal ∈ gateway.contract.signals)
include listed

theorem byNodeId_listed [DecidableEq ν] : byNodeId gateway (gateway.nodeId signal) = .ok signal := by
  rw [byNodeId,find?_reverse_key gateway.apart listed]
  rfl

theorem nodeIds_listed : nodeIds gateway signal.name = .ok (gateway.nodeId signal) := by
  have names := names_distinct (validate_ok gateway.valid).2.1
  have found : byName gateway.contract.signals signal.name = .ok signal := by
    rw [byName,find?_reverse_key (fun a ha b hb => List.inj_on_of_nodup_map names ha hb) listed]
    rfl
  simp [nodeIds,found,bind,Except.bind,pure,Except.pure]

theorem hasSetter_listed [DecidableEq ν] : hasSetter gateway (gateway.nodeId signal) = writable signal := by
  rw [hasSetter,byNodeId_listed gateway listed]

end

/-! ### What the setter does -/

section
variable {ν : Type} [DecidableEq ν] (gateway : Gateway ν) (s : State ν)

omit [DecidableEq ν] in
theorem encodeValue_isWords {mapping : ModbusMapping} {datavalue : DataValue} {metadata : Meta} {words : List ℕ}
    (encoded : encodeValue mapping datavalue metadata = .ok words) : IsWords mapping.type words := by
  unfold encodeValue at encoded
  split at encoded
  · exact encodeBy_isWords encoded
  · split_ifs at encoded with bool
    all_goals
      cases encoded
      rw [bool]
      decide
  · split_ifs at encoded with bool
    cases encoded
    rw [bool]
    decide

/-- Words for an integer register are of a finite value, which exact arithmetic encodes too. -/
theorem encodeValue_int {mapping : ModbusMapping} {datavalue : DataValue} {metadata : Meta} {words : List ℕ}
    (integer : (intBounds mapping.type).isSome) (encoded : encodeValue mapping datavalue metadata = .ok words) :
    ∃ value, datavalue.value = some (.plain value) ∧ encode mapping value metadata = .ok words := by
  have notBool : mapping.type ≠ .bool := fun h => by simp [h,intBounds] at integer
  have notFloat : mapping.type ≠ .float32 := fun h => by simp [h,intBounds] at integer
  unfold encodeValue at encoded
  split at encoded
  · rename_i value plain
    refine ⟨value,plain,?_⟩
    simp only [encodeDouble,encodeBy,notBool,if_false,ne_eq,notFloat,not_false_eq_true,if_true,bind_eq_ok] at encoded
    obtain ⟨quotient,divided,n,rounded,packed⟩ := encoded
    -- Only a finite quotient is rounded, and a double holds it as it is.
    have same : quotient.double = quotient := PyFloat.double_of_round rounded
    rw [same] at rounded
    simp only [encode,encodeBy,notBool,if_false,divided,id,ne_eq,notFloat,not_false_eq_true,if_true,rounded,bind,Except.bind,
      packed]
  · simp [notBool] at encoded
  · simp [notBool] at encoded

/-- What the setter pushes is the encoding of the client's value, for the signal of the node. -/
theorem accept_ok {node : ν} {datavalue : DataValue} {push : Push} (accepted : accept gateway s node datavalue = .ok push) :
    push.signal ∈ gateway.contract.signals ∧ gateway.nodeId push.signal = node ∧
      encodeValue push.signal.modbus datavalue gateway.contract.metadata = .ok push.words := by
  obtain ⟨signal,known,rest⟩ := bind_eq_ok.mp accepted
  have found := lookup_eq_ok.mp known
  have listed := List.mem_reverse.mp (List.mem_of_find?_eq_some found)
  have keyed : gateway.nodeId signal = node := by simpa using List.find?_some found
  cases confirmed : s.lastWords signal.name with
  | none => simp [confirmed] at rest
  | some polled =>
    simp only [confirmed] at rest
    cases encoded : encodeValue signal.modbus datavalue gateway.contract.metadata with
    | error e => cases e <;> simp [encoded] at rest
    | ok words =>
      simp only [encoded,Except.ok.injEq] at rest
      subst rest
      exact ⟨listed,keyed,encoded⟩

/-- The setter takes the mark off the node, whatever becomes of the write. -/
theorem setSignal_externalWrites (node : ν) (datavalue : DataValue) :
    (setSignal gateway s node datavalue).1.externalWrites = s.externalWrites.erase node := by
  by_cases marked : node ∈ s.externalWrites
  · simp only [setSignal,if_pos marked]
    cases accept gateway s node datavalue <;> rfl
  · rw [setSignal,if_neg marked,Finset.erase_eq_of_notMem marked]
    rfl

/-- The setter takes a write for a client's exactly when its node is marked: then it
    starts a push or raises, and otherwise it does neither. -/
theorem setSignal_quiet_iff (node : ν) (datavalue : DataValue) :
    (setSignal gateway s node datavalue).2 = .ok () ∧ (setSignal gateway s node datavalue).1.pushes = s.pushes ↔
      node ∉ s.externalWrites := by
  by_cases marked : node ∈ s.externalWrites
  · simp only [setSignal,marked,not_true_eq_false,iff_false]
    cases accept gateway s node datavalue with
    | ok push =>
      rintro ⟨_,same⟩
      simp [State.store] at same
    | error e =>
      rintro ⟨returned,_⟩
      cases returned
  · simp only [setSignal,marked,not_false_eq_true,iff_true]
    exact ⟨rfl,rfl⟩

/-- The ways of `_publish_state`: the reading failed, `int` does not take its value, its code is
    not declared, or it is. -/
theorem publish_outcomes {reading : Reading gateway.contract} {states : List (ℤ × String)}
    (declares : reading.signal.opcua.states = some states) :
    let name := reading.signal.name
    let node := gateway.nodeId reading.signal
    let unknown (words : Option (List ℕ)) : State ν := { s with
      lastWords := Function.update s.lastWords name words
      lastStateCode := Function.update s.lastStateCode name none }
    reading.result = none ∧ publish gateway s reading = writeAttributeValue gateway (unknown none) node badValue ∨
      ∃ polled, reading.result = some polled ∧
        let seen : State ν := { s with lastWords := Function.update s.lastWords name (some polled.1) }
        ((∃ e, polled.2.toInt = .error e ∧ publish gateway s reading = (seen,.error e)) ∨
          ∃ code, polled.2.toInt = .ok code ∧
            (states.lookup code = none ∧
                publish gateway s reading = writeAttributeValue gateway (unknown (some polled.1)) node badValue ∨
              ∃ state, states.lookup code = some state ∧ publish gateway s reading =
                ({ seen with lastStateCode := Function.update s.lastStateCode name (some code) }.changeState node name code
                  state (s.lastStateCode name ≠ some code),.ok ()))) := by
  have node := nodeIds_listed gateway reading.listed
  cases result : reading.result with
  | none => exact .inl ⟨rfl,by simp [publish,publishState,declares,node,result]⟩
  | some polled =>
    refine .inr ⟨polled,rfl,?_⟩
    cases integer : polled.2.toInt with
    | error e => exact .inl ⟨e,rfl,by simp [publish,publishState,declares,node,result,integer]⟩
    | ok code =>
      refine .inr ⟨code,rfl,?_⟩
      cases known : states.lookup code with
      | none => exact .inl ⟨rfl,by simp [publish,publishState,declares,node,result,integer,known]⟩
      | some state => exact .inr ⟨state,rfl,by simp [publish,publishState,declares,node,result,integer,known]⟩

/-- The publication of a writable signal is a setter call, after its registers are recorded. -/
theorem publish_writable (reading : Reading gateway.contract) (settable : writable reading.signal) :
    ∃ datavalue, publish gateway s reading =
      setSignal gateway
        { s with lastWords := Function.update s.lastWords reading.signal.name (reading.result.map (·.1)) }
        (gateway.nodeId reading.signal) datavalue := by
  have ordinary : reading.signal.opcua.states = none := by
    simp only [writable,Bool.and_eq_true,Option.isNone_iff_eq_none] at settable
    exact settable.1
  have setter := (hasSetter_listed gateway reading.listed).trans settable
  have node := nodeIds_listed gateway reading.listed
  cases result : reading.result with
  | none => exact ⟨badValue,by simp [publish,ordinary,node,result,writeAttributeValue,setter]⟩
  | some polled =>
    exact ⟨{ value := some (.plain polled.2) },by simp [publish,ordinary,node,result,writeAttributeValue,setter]⟩

/-- The publication of any other signal leaves the marks alone. -/
theorem publish_other (reading : Reading gateway.contract) (other : writable reading.signal = false) :
    (publish gateway s reading).1.externalWrites = s.externalWrites := by
  have setter := (hasSetter_listed gateway reading.listed).trans other
  have written (t : State ν) (datavalue : DataValue) :
      (writeAttributeValue gateway t (gateway.nodeId reading.signal) datavalue).1.externalWrites = t.externalWrites := by
    simp [writeAttributeValue,setter,State.store]
  cases states : reading.signal.opcua.states with
  | none =>
    cases result : reading.result <;>
      simp [publish,states,nodeIds_listed gateway reading.listed,result,written]
  | some declared =>
    obtain ⟨_,published⟩ | ⟨polled,_,⟨_,_,raised⟩ | ⟨code,_,⟨_,published⟩ | ⟨state,_,changed⟩⟩⟩ :=
      publish_outcomes gateway s states
    · rw [published,written]
    · rw [raised]
    · rw [published,written]
    · rw [changed]
      rfl

end

/-! ### Runs -/

/-- One item of a client's write request. It passes when the server finds the node's
    value writable by this client and of the node's type. -/
structure WriteItem (ν : Type) where
  node : ν
  datavalue : DataValue
  passes : Bool
deriving DecidableEq

/-- The gateway with the items that are left of the request at hand, and with the requests
    that have come in since; with none at hand none is waiting. -/
structure Server (ν : Type) where
  state : State ν := {}
  pending : List (WriteItem ν) := []
  waiting : List (List (WriteItem ν)) := []
  idle : pending = [] → waiting = [] := by exact fun _ => rfl

/-- No write has come in. -/
abbrev Server.start {ν : Type} : Server ν := {}

/-- When nothing is left of the request at hand the next one is. -/
def Server.proceed {ν : Type} (state : State ν) : List (WriteItem ν) → List (List (WriteItem ν)) → Server ν
  | [], [] => { state }
  | [], items :: waiting => proceed state items waiting
  | item :: rest, waiting => { state, pending := item :: rest, waiting, idle := nofun }

inductive Action (ν : Type) (contract : Contract)
  | request (items : List (WriteItem ν))
  | next
  | publish (reading : Reading contract)

section
variable {ν : Type} [DecidableEq ν] (gateway : Gateway ν)

/-- The types of numbers. -/
def numberTypes : List String :=
  ["Boolean","SByte","Byte","Int16","UInt16","Int32","UInt32","Int64","UInt64","Float","Double"]

/-- The server finds that a text is not of the type of a node of numbers. -/
def WriteItem.mistyped (item : WriteItem ν) : Bool :=
  match item.datavalue.value, (byNodeId gateway item.node).toOption.bind (·.opcua.type) with
  | some (.text _), some type => decide (type ∈ numberTypes)
  | _, _ => false

/-- The item comes to the setter. -/
def WriteItem.reaches (item : WriteItem ν) : Bool :=
  item.passes && !item.mistyped gateway && hasSetter gateway item.node

/-- An exception of the setter ends its request, whose other items come to no setter. -/
def step (w : Server ν) : Action ν gateway.contract → Option (Server ν)
  | .request items =>
    some (.proceed (markExternalWrite w.state true (items.map (·.node))) w.pending (w.waiting ++ [items]))
  | .next =>
    match w.pending with
    | [] => none
    | item :: rest =>
      if item.reaches gateway then
        let (state,outcome) := setSignal gateway w.state item.node item.datavalue
        some (.proceed state (if outcome.toOption.isSome then rest else []) w.waiting)
      else some (.proceed w.state rest w.waiting)
  | .publish reading => some { w with state := (publish gateway w.state reading).1 }

/-- The nodes that a step names for a client, or calls the setter for. -/
def observe (w : Server ν) : Action ν gateway.contract → List (Mark ν)
  | .request items => [.put (items.map (·.node))]
  | .next =>
    match w.pending with
    | [] => []
    | item :: _ => if item.reaches gateway then [.take item.node] else []
  | .publish reading => if writable reading.signal then [.take (gateway.nodeId reading.signal)] else []

/-- What a run names and calls the setter for. -/
def history (w : Server ν) (actions : List (Action ν gateway.contract)) : List (Mark ν) :=
  log (step gateway) (fun w a _ => observe gateway w a) w actions

omit [DecidableEq ν] in
@[simp] theorem proceed_state (state : State ν) (pending : List (WriteItem ν)) (waiting : List (List (WriteItem ν))) :
    (Server.proceed state pending waiting).state = state := by
  induction waiting generalizing pending with
  | nil => cases pending <;> rfl
  | cons items waiting ih =>
    cases pending with
    | nil => exact ih items
    | cons => rfl

omit [DecidableEq ν] in
/-- What is to be handled was to be handled before. -/
theorem mem_proceed {state : State ν} {pending : List (WriteItem ν)} {waiting : List (List (WriteItem ν))}
    {item : WriteItem ν} : (item ∈ (Server.proceed state pending waiting).pending ∨
      ∃ items ∈ (Server.proceed state pending waiting).waiting, item ∈ items) ↔
      item ∈ pending ∨ ∃ items ∈ waiting, item ∈ items := by
  induction waiting generalizing pending with
  | nil => cases pending <;> rfl
  | cons items waiting ih =>
    cases pending with
    | nil => simpa [Server.proceed] using @ih items
    | cons => rfl

omit [DecidableEq ν] in
@[simp] theorem proceed_alone (state : State ν) (pending : List (WriteItem ν)) :
    Server.proceed state pending [] = { state, pending } := by
  cases pending <;> rfl

omit [DecidableEq ν] in
@[simp] theorem proceed_single (state : State ν) (items : List (WriteItem ν)) :
    Server.proceed state [] [items] = { state, pending := items } := proceed_alone state items

/-- The next item comes to the setter, which lets the request go on or ends it, or it does not. -/
theorem step_next_cases {w w' : Server ν} (moved : step gateway w .next = some w') :
    ∃ item rest, w.pending = item :: rest ∧
      (item.reaches gateway = true ∧ (∃ left, left <+: rest ∧
          w' = .proceed (setSignal gateway w.state item.node item.datavalue).1 left w.waiting) ∨
        item.reaches gateway = false ∧ w' = .proceed w.state rest w.waiting) := by
  cases pending : w.pending with
  | nil => simp [step,pending] at moved
  | cons item rest =>
    refine ⟨item,rest,rfl,?_⟩
    cases reaches : item.reaches gateway with
    | true =>
      simp only [step,pending,reaches,if_true,Option.some.injEq] at moved
      refine .inl ⟨rfl,_,?_,moved.symm⟩
      split_ifs
      · exact List.prefix_rfl
      · exact List.nil_prefix
    | false =>
      simp only [step,pending,reaches,Bool.false_eq_true,if_false,Option.some.injEq] at moved
      exact .inr ⟨rfl,moved.symm⟩

theorem step_externalWrites {w w' : Server ν} {a : Action ν gateway.contract} (moved : step gateway w a = some w') :
    w'.state.externalWrites = (observe gateway w a).foldl apply w.state.externalWrites := by
  cases a with
  | request items =>
    cases moved
    simp [observe,markExternalWrite,apply]
  | next =>
    obtain ⟨item,rest,pending,⟨reaches,_,_,rfl⟩ | ⟨reaches,rfl⟩⟩ := step_next_cases gateway moved
    · simp [observe,pending,reaches,setSignal_externalWrites,apply]
    · simp [observe,pending,reaches]
  | publish reading =>
    cases moved
    cases settable : writable reading.signal with
    | true =>
      obtain ⟨datavalue,call⟩ := publish_writable gateway w.state reading settable
      simp [observe,settable,call,setSignal_externalWrites,apply]
    | false => simp [observe,settable,publish_other gateway w.state reading settable]

/-- The marked nodes are those that a request has named since their last setter call. -/
theorem externalWrites_run {w₀ w : Server ν} {actions : List (Action ν gateway.contract)}
    (fresh : w₀.state.externalWrites = ∅) (reached : run (step gateway) w₀ actions = some w) :
    w.state.externalWrites = marked (history gateway w₀ actions) := by
  refine run_induction (P := fun actions w => w.state.externalWrites = marked (history gateway w₀ actions)) ?_ ?_
    actions w reached
  · rw [fresh]
    rfl
  · intro actions w a w' before ih moved
    have split : history gateway w₀ (actions ++ [a]) = history gateway w₀ actions ++ observe gateway w a :=
      log_concat before moved
    rw [split,marked_append,← ih]
    exact step_externalWrites gateway moved

end
end MockPlant.GatewayServer
