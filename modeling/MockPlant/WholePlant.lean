import MockPlant.ModbusLink
import MockPlant.Projections
import MockPlant.Publications

/-!
The whole plant: a PLC with its scans and its masters, the gateway's poll loop and the
pushes that it starts for clients, and the OPC UA server between them and the clients.
Every order of their steps is a run. A run is a run of the PLC's traffic and a run of
the server, so what was proved of each holds of the whole.
-/
namespace MockPlant.WholePlant
open MockPlant.Python MockPlant.Contract MockPlant.Codec MockPlant.Machine MockPlant.ModbusServer MockPlant.Plc
open MockPlant.Runs MockPlant.Projections MockPlant.ScanCommands MockPlant.GatewayServer MockPlant.RegisterMap
open MockPlant.ModbusLink MockPlant.Handshake

/-! ### Pushes as traffic -/

/-- The request of a push, when the client sends it. -/
def pushTraffic (framing : Framing) (p : Push) : List Traffic :=
  match framing p.signal.modbus.addr p.words.length with
  | .ok () => [.write 16 p.signal.modbus.addr p.words]
  | .error _ => []

theorem run_pushTraffic (plc : Plc) (framing : Framing) (s : PlcState) (p : Push) :
    run (serve plc) s (pushTraffic framing p) = some (push framing s p).1 := by
  unfold pushTraffic push writeRegisters
  cases framing p.signal.modbus.addr p.words.length with
  | error e => rfl
  | ok => cases setValues s.memory 16 p.signal.modbus.addr p.words <;> rfl

theorem mem_pushTraffic {framing : Framing} {p : Push} {a : Traffic} (listed : a ∈ pushTraffic framing p) :
    a = .write 16 p.signal.modbus.addr p.words := by
  unfold pushTraffic at listed
  cases framed : framing p.signal.modbus.addr p.words.length with
  | error e => simp [framed] at listed
  | ok => simpa [framed] using listed

/-! ### Registers -/

theorem holds_unique {m : Memory} {mapping : ModbusMapping} {words words' : List ℕ} (first : Holds m mapping words)
    (second : Holds m mapping words') : words = words' := by
  refine List.ext_getElem? fun i => ?_
  by_cases inside : i < mapping.width
  · rw [first.2 i inside,second.2 i inside]
  · rw [List.getElem?_eq_none (first.1.trans_le (not_lt.mp inside)),
      List.getElem?_eq_none (second.1.trans_le (not_lt.mp inside))]

/-- Words stay where nothing changes their registers. -/
theorem holds_kept {m m' : Memory} {mapping : ModbusMapping} {words : List ℕ} (holds : Holds m mapping words)
    (same : ∀ a ∈ mapping.span, m'.get mapping.table a = m.get mapping.table a) : Holds m' mapping words := by
  refine ⟨holds.1,fun i inside => ?_⟩
  have here : mapping.addr + (i : ℤ) ∈ mapping.span := by
    simp only [Span.mem_def,ModbusMapping.span]
    omega
  rw [holds.2 i inside,same _ here]

/-! ### Worlds -/

/-- A booted PLC and a gateway for its contract. -/
structure Site (ν : Type) where
  gateway : Gateway ν
  conveyor : Conveyor
  cnc : Cnc
  plc : Plc
  start : PlcState
  booted : boot gateway.contract conveyor cnc = .ok (plc,start)
  framing : Framing

section
variable {ν : Type} [DecidableEq ν] (site : Site ν)

/-- A signal of the site's contract. -/
abbrev Listed := { s : Signal // s ∈ site.gateway.contract.signals }

/-- The PLC, the server, how many of its pushes have returned and whether the PLC has served
    the next one, what a poll has still to read and what it has read and not published, and
    whether an exception has ended the poll loop. -/
structure World where
  plant : PlcState := site.start
  server : Server ν := .start
  pushed : ℕ := 0
  applied : Bool := false
  unread : List (Listed site) := []
  readings : List (Reading site.gateway.contract) := []
  ended : Bool := false

/-- The traffic is that of the scans and of the other masters. A push waits for the link
    until those before it have returned, with an answer or an exception; the PLC may be
    served its request late, and again when the client tries again. -/
inductive Action (ν : Type)
  | traffic (a : Traffic)
  | request (items : List (WriteItem ν))
  | next
  | push (i : ℕ)
  | pushReturns (answered : Bool)
  | round
  | read (answered : Bool)
  | publish
deriving DecidableEq

variable {site} (w : World site)

/-- A poll of a signal. Without an answer it is a failed reading. -/
def World.poll (answered : Bool) (s : Listed site) : Except PyError (Reading site.gateway.contract) :=
  if answered then readSignal site.framing site.gateway.contract w.plant s.1 s.2 else .ok ⟨s.1,s.2,none⟩

/-- `poll_once` reads every signal before `run` passes the first reading on. -/
def step : Action ν → Option (World site)
  | .traffic a => (serve site.plc w.plant a).map (fun plant => { w with plant })
  | .request items => (GatewayServer.step site.gateway w.server (.request items)).map (fun server => { w with server })
  | .next => (GatewayServer.step site.gateway w.server .next).map (fun server => { w with server })
  | .push i => do
    let p ← w.server.state.pushes[i]?
    let (plant,outcome) := push site.framing w.plant p
    if i ≤ w.pushed then some { w with plant, applied := w.applied || (i = w.pushed && outcome.toOption.isSome) } else none
  | .pushReturns answered =>
    if w.pushed < w.server.state.pushes.length ∧ (answered = true → w.applied = true)
      then some { w with pushed := w.pushed + 1, applied := false } else none
  | .round =>
    if w.ended || !w.unread.isEmpty || !w.readings.isEmpty then none
    else some { w with unread := site.gateway.contract.signals.attach }
  | .read answered =>
    match w.ended, w.unread with
    | false, s :: rest =>
      match w.poll answered s with
      | .ok reading => some { w with unread := rest, readings := w.readings ++ [reading] }
      | .error _ => some { w with ended := true }
    | _, _ => none
  | .publish =>
    match w.ended, w.unread, w.readings with
    | false, [], reading :: rest =>
      let (state,outcome) := GatewayServer.publish site.gateway w.server.state reading
      some { w with server := { w.server with state }, readings := rest, ended := !outcome.toOption.isSome }
    | _, _, _ => none

/-! ### Its parts -/

/-- What a step is to the PLC. -/
def plantShows : Action ν → World site → List Traffic
  | .traffic a, _ => [a]
  | .push i, _ => w.server.state.pushes[i]?.toList.flatMap (pushTraffic site.framing)
  | _, _ => []

/-- What a step is to the server. -/
def serverShows : Action ν → World site → List (GatewayServer.Action ν site.gateway.contract)
  | .request items, _ => [.request items]
  | .next, _ => [.next]
  | .publish, _ => w.readings.head?.toList.map .publish
  | _, _ => []

/-- The traffic of a run. -/
def traffic (actions : List (Action ν)) : List Traffic := log step plantShows w actions

/-- The server's actions in a run. -/
def served (actions : List (Action ν)) : List (GatewayServer.Action ν site.gateway.contract) :=
  log step serverShows w actions

/-! ### What a step does -/

variable {w} {w' : World site}

theorem step_traffic {a : Traffic} (moved : step w (.traffic a) = some w') :
    ∃ plant, serve site.plc w.plant a = some plant ∧ w' = { w with plant } := by
  simp only [step,Option.map_eq_some_iff] at moved
  obtain ⟨plant,done,rfl⟩ := moved
  exact ⟨plant,done,rfl⟩

theorem step_request {items : List (WriteItem ν)} (moved : step w (.request items) = some w') :
    ∃ server, GatewayServer.step site.gateway w.server (.request items) = some server ∧ w' = { w with server } := by
  simp only [step,Option.map_eq_some_iff] at moved
  obtain ⟨server,done,rfl⟩ := moved
  exact ⟨server,done,rfl⟩

theorem step_next (moved : step w .next = some w') :
    ∃ server, GatewayServer.step site.gateway w.server .next = some server ∧ w' = { w with server } := by
  simp only [step,Option.map_eq_some_iff] at moved
  obtain ⟨server,done,rfl⟩ := moved
  exact ⟨server,done,rfl⟩

theorem step_push {i : ℕ} (moved : step w (.push i) = some w') : ∃ p, w.server.state.pushes[i]? = some p ∧ i ≤ w.pushed ∧
    w' = { w with
      plant := (push site.framing w.plant p).1
      applied := w.applied || (i = w.pushed && (push site.framing w.plant p).2.toOption.isSome) } := by
  obtain ⟨p,found,moved⟩ := Option.bind_eq_some_iff.mp moved
  split_ifs at moved with turn
  cases moved
  exact ⟨p,found,turn,rfl⟩

theorem step_pushReturns {answered : Bool} (moved : step w (.pushReturns answered) = some w') :
    w.pushed < w.server.state.pushes.length ∧ (answered = true → w.applied = true) ∧
      w' = { w with pushed := w.pushed + 1, applied := false } := by
  simp only [step] at moved
  split_ifs at moved with waiting
  cases moved
  exact ⟨waiting.1,waiting.2,rfl⟩

theorem step_round (moved : step w .round = some w') : w.ended = false ∧ w.unread = [] ∧ w.readings = [] ∧
    w' = { w with unread := site.gateway.contract.signals.attach } := by
  simp only [step] at moved
  split_ifs at moved with busy
  cases moved
  simp only [Bool.or_eq_true,Bool.not_eq_true',not_or,Bool.not_eq_true,Bool.not_eq_false,List.isEmpty_iff] at busy
  exact ⟨busy.1.1,busy.1.2,busy.2,rfl⟩

theorem step_read {answered : Bool} (moved : step w (.read answered) = some w') :
    w.ended = false ∧ ∃ s rest, w.unread = s :: rest ∧
      ((∃ reading, w.poll answered s = .ok reading ∧ w' = { w with unread := rest, readings := w.readings ++ [reading] }) ∨
        (∃ e, w.poll answered s = .error e) ∧ w' = { w with ended := true }) := by
  simp only [step] at moved
  split at moved
  case h_2 => cases moved
  case h_1 s rest running unread =>
    refine ⟨running,s,rest,unread,?_⟩
    cases polled : w.poll answered s with
    | ok reading =>
      simp only [polled,Option.some.injEq] at moved
      exact .inl ⟨reading,rfl,moved.symm⟩
    | error e =>
      simp only [polled,Option.some.injEq] at moved
      exact .inr ⟨⟨e,rfl⟩,moved.symm⟩

theorem step_publish (moved : step w .publish = some w') :
    w.ended = false ∧ w.unread = [] ∧ ∃ reading rest, w.readings = reading :: rest ∧
      w' = { w with
        server := { w.server with state := (GatewayServer.publish site.gateway w.server.state reading).1 }
        readings := rest
        ended := !(GatewayServer.publish site.gateway w.server.state reading).2.toOption.isSome } := by
  simp only [step] at moved
  split at moved
  case h_2 => cases moved
  case h_1 reading rest running unread readings =>
    cases moved
    exact ⟨running,unread,reading,rest,readings,rfl⟩

omit [DecidableEq ν] in
theorem poll_signal {answered : Bool} {s : Listed site} {reading : Reading site.gateway.contract}
    (polled : w.poll answered s = .ok reading) : (⟨reading.signal,reading.listed⟩ : Listed site) = s := by
  cases answered with
  | false =>
    cases polled
    rfl
  | true =>
    simp only [World.poll,if_true,ModbusLink.readSignal] at polled
    split at polled
    · cases polled
    · cases polled
      rfl
    · obtain ⟨value,_,done⟩ := bind_eq_ok.mp polled
      cases done
      rfl

omit [DecidableEq ν] in
/-- A good poll is of the signal's registers, when the link reads their table. -/
theorem poll_good {answered : Bool} {s : Listed site} {reading : Reading site.gateway.contract}
    (polled : w.poll answered s = .ok reading) {words : List ℕ} {value : Value}
    (good : reading.result = some (words,value))
    (table : funcTable (readCode s.1.modbus.table) = some s.1.modbus.table) :
    Holds w.plant.memory s.1.modbus words ∧
      decode s.1.modbus words site.gateway.contract.metadata = .ok value := by
  cases answered with
  | false =>
    cases polled
    cases good
  | true =>
    have read : ModbusLink.readSignal site.framing site.gateway.contract w.plant s.1 s.2 = .ok reading := polled
    obtain ⟨_,served⟩ := readSignal_ok read good
    obtain ⟨length,same⟩ := getValues_words served
    refine ⟨⟨length,same _ table⟩,?_⟩
    simp only [ModbusLink.readSignal] at read
    split at read
    · cases read
    · cases read
      cases good
    · obtain ⟨decoded,found,done⟩ := bind_eq_ok.mp read
      cases done
      cases good
      exact found

/-- A run of the world is one of the PLC's traffic. -/
theorem plant_projects : Projects step (serve site.plc) (World.plant : World site → PlcState) plantShows := by
  intro w a w' moved
  cases a with
  | traffic a =>
    obtain ⟨plant,done,rfl⟩ := step_traffic moved
    simp [plantShows,run,done]
  | request items =>
    obtain ⟨_,_,rfl⟩ := step_request moved
    rfl
  | next =>
    obtain ⟨_,_,rfl⟩ := step_next moved
    rfl
  | push i =>
    obtain ⟨p,found,_,rfl⟩ := step_push moved
    simpa [plantShows,found] using run_pushTraffic site.plc site.framing w.plant p
  | pushReturns =>
    obtain ⟨_,_,rfl⟩ := step_pushReturns moved
    rfl
  | round =>
    obtain ⟨_,_,_,rfl⟩ := step_round moved
    rfl
  | read =>
    obtain ⟨_,_,_,_,⟨_,_,rfl⟩ | ⟨_,rfl⟩⟩ := step_read moved <;> rfl
  | publish =>
    obtain ⟨_,_,_,_,_,rfl⟩ := step_publish moved
    rfl

/-- A run of the world is one of the server. -/
theorem server_projects :
    Projects step (GatewayServer.step site.gateway) (World.server : World site → Server ν) serverShows := by
  intro w a w' moved
  cases a with
  | traffic =>
    obtain ⟨_,_,rfl⟩ := step_traffic moved
    rfl
  | request items =>
    obtain ⟨server,done,rfl⟩ := step_request moved
    simp [serverShows,run,done]
  | next =>
    obtain ⟨server,done,rfl⟩ := step_next moved
    simp [serverShows,run,done]
  | push i =>
    obtain ⟨_,_,_,rfl⟩ := step_push moved
    rfl
  | pushReturns =>
    obtain ⟨_,_,rfl⟩ := step_pushReturns moved
    rfl
  | round =>
    obtain ⟨_,_,_,rfl⟩ := step_round moved
    rfl
  | read =>
    obtain ⟨_,_,_,_,⟨_,_,rfl⟩ | ⟨_,rfl⟩⟩ := step_read moved <;> rfl
  | publish =>
    obtain ⟨_,_,reading,rest,readings,rfl⟩ := step_publish moved
    simp [serverShows,readings,run,GatewayServer.step]

end

/-- The shipped contract, with a client that refuses what has no frame. -/
def shippedSite : Site String where
  gateway := Publications.shippedGateway
  conveyor := Shipped.conveyor
  cnc := Shipped.cnc
  plc := Shipped.plc
  start := Shipped.booted
  booted := Shipped.boot_booted
  framing := modbusFraming

/-- A poll of the five signals, with their publications. -/
def shippedPoll : List (Action String) := List.replicate 5 (.read true) ++ List.replicate 5 .publish

def setpointItem (v : ℚ) : WriteItem String :=
  ⟨"s=Conveyor1.SpeedSetpoint",{ value := some (.plain (.float (.fin v))) },true⟩

end MockPlant.WholePlant
