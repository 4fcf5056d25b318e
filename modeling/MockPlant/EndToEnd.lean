import MockPlant.PollRounds

/-!
From the machines to the OPC UA nodes. A scan publishes the machines that it started with
to the input registers, a round of polls reads them, and the nodes show them: each of the
three published signals tells the machines as the latest scan before its own poll found them.
-/
namespace MockPlant.EndToEnd
open MockPlant.Python MockPlant.Contract MockPlant.Codec MockPlant.Machine MockPlant.ModbusServer MockPlant.Plc
open MockPlant.Runs MockPlant.Projections MockPlant.ScanCommands MockPlant.GatewayServer MockPlant.RegisterMap
open MockPlant.ModbusLink MockPlant.InputRegisters MockPlant.StaleValues MockPlant.WholePlant MockPlant.Provenance
open MockPlant.PollRounds MockPlant.Handshake

/-! ### The latest scan -/

/-- The state that the latest scan of the traffic started with. -/
def LatestScan (plc : Plc) (start : PlcState) (actions : List Traffic) (s : PlcState) : Prop :=
  ∃ earlier dt later, actions = earlier ++ .scan dt :: later ∧ (∀ a ∈ later, a.isScan = false) ∧
    run (serve plc) start earlier = some s

theorem latestScan_exists {plc : Plc} {start t : PlcState} {actions : List Traffic}
    (reached : run (serve plc) start actions = some t) (scanned : ∃ dt, .scan dt ∈ actions) :
    ∃ s, LatestScan plc start actions s := by
  induction actions using List.reverseRecOn generalizing t with
  | nil =>
    obtain ⟨_,absent⟩ := scanned
    cases absent
  | append_singleton earlier a ih =>
    obtain ⟨u,before,_⟩ := run_concat.mp reached
    by_cases scan : a.isScan = true
    · cases a with
      | scan dt => exact ⟨u,earlier,dt,[],rfl,by simp,before⟩
      | _ => cases scan
    · obtain ⟨dt,member⟩ := scanned
      have inside : .scan dt ∈ earlier := by
        rcases List.mem_append.mp member with old | new
        · exact old
        · rw [List.mem_singleton] at new
          subst new
          exact absurd rfl scan
      obtain ⟨s,first,dt',later,rfl,requests,start⟩ := ih before ⟨dt,inside⟩
      refine ⟨s,first,dt',later ++ [a],by simp,fun b member => ?_,start⟩
      rcases List.mem_append.mp member with old | new
      · exact requests b old
      · rw [List.mem_singleton] at new
        subst new
        exact Bool.not_eq_true _ ▸ scan

/-- The input registers tell what the latest scan started with. -/
theorem LatestScan.tells {contract : Contract} {conveyor : Conveyor} {cnc : Cnc} {plc : Plc} {start s t : PlcState}
    {actions : List Traffic} (latest : LatestScan plc start actions s) (runnable : Runnable contract)
    (booted : boot contract conveyor cnc = .ok (plc,start)) (inputs : Inputs plc) (writes : ∀ a ∈ actions, WriteCode a)
    (reached : run (serve plc) start actions = some t) : Tells plc t.memory s.conveyor s.cnc := by
  have created := (boot_ok.mp booted).1
  obtain ⟨rfl,_⟩ := new_built created
  obtain ⟨earlier,dt,later,rfl,requests,began⟩ := latest
  rw [run_append,began,Option.bind_some] at reached
  obtain ⟨u,served,rest⟩ := Option.bind_eq_some_iff.mp reached
  refine (scan_tells runnable created inputs (toOption_eq_ok.mp served)).congr inputs ?_
  exact run_input (fun a member => writes a (List.mem_append_right _ (List.mem_cons_of_mem _ member))) requests rest

/-! ### Polls of the input registers -/

section
variable {ν : Type} [DecidableEq ν] {site : Site ν}

theorem traffic_writeCode {w₀ : World site} {actions : List (Action ν)}
    (writes : ∀ a, .traffic a ∈ actions → WriteCode a) : ∀ a ∈ traffic w₀ actions, WriteCode a := by
  refine forall_mem_log fun b member t u moved a shows => ?_
  cases b with
  | traffic b =>
    simp only [plantShows,List.mem_singleton] at shows
    subst shows
    exact writes _ member
  | push i =>
    obtain ⟨p,_,served⟩ := List.mem_flatMap.mp shows
    rw [mem_pushTraffic served]
    simp [WriteCode]
  | _ => cases shows

theorem scan_mem_traffic {w₀ w : World site} {actions : List (Action ν)} (reached : run step w₀ actions = some w) {a : Traffic}
    (member : .traffic a ∈ actions) : a ∈ traffic w₀ actions := by
  obtain ⟨earlier,later,rfl⟩ := List.append_of_mem member
  rw [run_append] at reached
  obtain ⟨t,before,rest⟩ := Option.bind_eq_some_iff.mp reached
  obtain ⟨u,moved,_⟩ := Option.bind_eq_some_iff.mp rest
  rw [traffic,log_append _ before,log,moved]
  simp [plantShows]

/-- The round's own poll of the signal has failed. -/
def FailedPoll (w₀ : World site) (actions : List (Action ν)) (signal : Signal) : Prop :=
  ∃ r, Polled w₀ actions r ∧ r.signal = signal ∧ r.result = none

/-- The round's own poll of the signal is a good one, and the latest scan before it started
    in the state. -/
def GoodPoll (before : List (Action ν)) (w₀ : World site) (actions : List (Action ν)) (signal : Signal) (s : PlcState) :
    Prop :=
  ∃ earlier r, PolledAt w₀ actions earlier r ∧ r.signal = signal ∧ r.result.isSome ∧
    LatestScan site.plc site.start (traffic ({} : World site) (before ++ earlier)) s

/-- The node of the signal says that the round's poll of it has failed. -/
def Failed (w₀ : World site) (actions : List (Action ν)) (w : World site) (signal : Signal) : Prop :=
  FailedPoll w₀ actions signal ∧ w.server.state.values (site.gateway.nodeId signal) = some badValue

/-- The node of the signal shows the value after a good poll of it, and the scan found the state. -/
def Found (before : List (Action ν)) (w₀ : World site) (actions : List (Action ν)) (w : World site) (signal : Signal)
    (s : PlcState) (d : DataValue) : Prop :=
  GoodPoll before w₀ actions signal s ∧ w.server.state.values (site.gateway.nodeId signal) = some d

/-- What the nodes of the published signals show of the machines, each as the latest scan
    before its own poll in the round found them, unless its poll has failed. -/
structure Told (site : Site ν) (before : List (Action ν)) (w₀ : World site) (actions : List (Action ν)) (w : World site) :
    Prop where
  state : Failed w₀ actions w site.plc.cncStateSignal ∨
    ∃ s, Found before w₀ actions w site.plc.cncStateSignal s { value := some (.text s.cnc.state.value) }
  speed : (intBounds site.plc.actualSignal.modbus.type).isSome → Failed w₀ actions w site.plc.actualSignal ∨
    ∃ s v x r, Found before w₀ actions w site.plc.actualSignal s { value := some (.plain (.float x)) } ∧
      s.conveyor.speed.rat? = some v ∧ x.rat? = some r ∧ |r - v| ≤ |site.plc.actualSignal.modbus.scale| / 2
  position : Failed w₀ actions w site.plc.positionSignal ∨
    ∃ s words value, Found before w₀ actions w site.plc.positionSignal s { value := some (.plain value) } ∧
      encode site.plc.positionSignal.modbus (.float s.conveyor.position) site.gateway.contract.metadata = .ok words ∧
      decode site.plc.positionSignal.modbus words site.gateway.contract.metadata = .ok value

/-- The published signals are for reading: their nodes have no setter, and two of them no states. -/
structure ReadOnly (site : Site ν) : Prop where
  state : writable site.plc.cncStateSignal = false
  speed : writable site.plc.actualSignal = false
  position : writable site.plc.positionSignal = false
  plainSpeed : site.plc.actualSignal.opcua.states = none
  plainPosition : site.plc.positionSignal.opcua.states = none

/-- What a good poll of an input register reads, with the latest scan before it. -/
theorem polled_tells (runnable : Runnable site.gateway.contract) (inputs : Inputs site.plc)
    {before actions earlier : List (Action ν)} {w₀ : World site} (start : run step ({} : World site) before = some w₀)
    (writes : ∀ a, .traffic a ∈ before ++ actions → WriteCode a) (scanned : ∃ dt, .traffic (.scan dt) ∈ before)
    {r : Reading site.gateway.contract} (polled : PolledAt w₀ actions earlier r) {words : List ℕ} {value : Value}
    (good : r.result = some (words,value)) (table : r.signal.modbus.table = .input) :
    ∃ s m, LatestScan site.plc site.start (traffic ({} : World site) (before ++ earlier)) s ∧
      Tells site.plc m s.conveyor s.cnc ∧ Holds m r.signal.modbus words ∧
      decode r.signal.modbus words site.gateway.contract.metadata = .ok value := by
  obtain ⟨answered,later,t,_,rfl,reached,_,poll⟩ := polled
  have whole : run step ({} : World site) (before ++ earlier) = some t := by
    rw [run_append,start]
    exact reached
  have log := plant_projects.run_log whole
  obtain ⟨dt,member⟩ := scanned
  obtain ⟨s,latest⟩ := latestScan_exists log
    ⟨dt,scan_mem_traffic whole (List.mem_append_left _ member)⟩
  have codes : ∀ a ∈ traffic ({} : World site) (before ++ earlier), WriteCode a := traffic_writeCode fun a member =>
    writes a (by simp only [List.mem_append] at member ⊢; tauto)
  obtain ⟨holds,decoded⟩ := poll_good poll good (by rw [table]; rfl)
  exact ⟨s,t.plant.memory,latest,latest.tells runnable site.booted inputs codes log,holds,decoded⟩

/-- What a node shows after the round that can write it for no client. -/
theorem shows_readOnly {actions : List (Action ν)} {w : World site} {r : Reading site.gateway.contract}
    (shows : Shows actions w r) (readOnly : writable r.signal = false) :
    w.server.state.values (site.gateway.nodeId r.signal) = some (shown r) := by
  rcases shows with own | ⟨d,⟨items,_,item,_,reaches,node,_⟩,_⟩
  · exact own
  · simp [WriteItem.reaches,node,hasSetter_listed site.gateway r.listed,readOnly] at reaches

theorem shown_failed {contract : Contract} {r : Reading contract} (failed : r.result = none) : shown r = badValue := by
  rw [shown,failed]

theorem shown_plain {contract : Contract} {r : Reading contract} {words : List ℕ} {value : Value}
    (good : r.result = some (words,value)) (plain : r.signal.opcua.states = none) :
    shown r = { value := some (.plain value) } := by
  simp [shown,good,plain]

section
variable (runnable : Runnable site.gateway.contract) (inputs : Inputs site.plc) {before actions : List (Action ν)}
  {w₀ w : World site} (start : run step ({} : World site) (before ++ [.round]) = some w₀) (sole : .round ∉ actions)
  (orderly : Along step Orderly ({} : World site) (before ++ [.round] ++ actions))
  (writes : ∀ a, .traffic a ∈ before ++ [.round] ++ actions → WriteCode a) (scanned : ∃ dt, .traffic (.scan dt) ∈ before)
  (reached : run step w₀ actions = some w) (running : w.ended = false) (read : w.unread = []) (passed : w.readings = [])
include runnable inputs start sole orderly writes scanned reached running read passed

/-- A node of an input register that no client writes shows the failed poll of its signal, or
    the good one, of registers that tell the machines of the latest scan. -/
theorem round_input {signal : Signal} (listed : signal ∈ site.gateway.contract.signals) (table : signal.modbus.table = .input)
    (readOnly : writable signal = false) : Failed w₀ actions w signal ∨
    ∃ (r : Reading site.gateway.contract) (words : List ℕ) (value : Value) (s : PlcState) (m : Memory),
      r.signal = signal ∧ r.result = some (words,value) ∧ Found (before ++ [.round]) w₀ actions w signal s (shown r) ∧
      Tells site.plc m s.conveyor s.cnc ∧ Holds m signal.modbus words ∧
      decode signal.modbus words site.gateway.contract.metadata = .ok value := by
  obtain ⟨readings,upTo⟩ := run_round start sole orderly reached running
  obtain ⟨signals,round⟩ := upTo.complete read passed
  obtain ⟨dt,member⟩ := scanned
  obtain ⟨r,published,rfl⟩ := List.mem_map.mp (signals ▸ listed)
  obtain ⟨polled,_,shows⟩ := round r published
  have value := shows_readOnly shows readOnly
  cases result : r.result with
  | none => exact .inl ⟨⟨r,polled,rfl,result⟩,value.trans (congrArg some (shown_failed result))⟩
  | some good =>
    obtain ⟨earlier,polledAt⟩ := polled
    obtain ⟨s,m,latest,tells,holds,decoded⟩ :=
      polled_tells runnable inputs start writes ⟨dt,List.mem_append_left _ member⟩ polledAt result table
    exact .inr ⟨r,_,_,s,m,rfl,result,⟨⟨earlier,r,polledAt,rfl,by rw [result]; rfl,latest⟩,value⟩,tells,holds,decoded⟩

section
variable (readOnly : ReadOnly site)
include readOnly

theorem round_state : Failed w₀ actions w site.plc.cncStateSignal ∨
    ∃ s, Found (before ++ [.round]) w₀ actions w site.plc.cncStateSignal s { value := some (.text s.cnc.state.value) } := by
  obtain ⟨same,built,_⟩ := boot_fixed site.booted
  refine (round_input runnable inputs start sole orderly writes scanned reached running read passed (same ▸ built.cncState)
    inputs.state readOnly.state).imp_right ?_
  rintro ⟨r,words,value,s,m,signal,result,found,tells,holds,decoded⟩
  obtain ⟨words,states,holds',declared,named⟩ := tells.state
  cases holds_unique holds holds'
  rw [stateName,same,decoded] at named
  obtain ⟨_,here,coded⟩ := bind_eq_ok.mp named
  cases here
  obtain ⟨code,integer,known⟩ := bind_eq_ok.mp coded
  have text : shown r = { value := some (.text s.cnc.state.value) } := by
    simp [shown,result,signal,declared,integer,lookup_eq_ok.mp known]
  exact ⟨s,text ▸ found⟩

theorem round_speed (integer : (intBounds site.plc.actualSignal.modbus.type).isSome) :
    Failed w₀ actions w site.plc.actualSignal ∨ ∃ s v x r,
      Found (before ++ [.round]) w₀ actions w site.plc.actualSignal s { value := some (.plain (.float x)) } ∧
      s.conveyor.speed.rat? = some v ∧ x.rat? = some r ∧ |r - v| ≤ |site.plc.actualSignal.modbus.scale| / 2 := by
  obtain ⟨same,built,_⟩ := boot_fixed site.booted
  refine (round_input runnable inputs start sole orderly writes scanned reached running read passed (same ▸ built.actual)
    inputs.actual readOnly.speed).imp_right ?_
  rintro ⟨r,words,value,s,m,signal,result,found,tells,holds,decoded⟩
  obtain ⟨words,v,x,q,holds',finite,decoded',rational,near⟩ := tells.speed integer
  cases holds_unique holds holds'
  rw [same,decoded] at decoded'
  cases decoded'
  have plain := shown_plain result (signal ▸ readOnly.plainSpeed)
  exact ⟨s,v,x,q,plain ▸ found,finite,rational,near⟩

theorem round_position : Failed w₀ actions w site.plc.positionSignal ∨ ∃ s words value,
    Found (before ++ [.round]) w₀ actions w site.plc.positionSignal s { value := some (.plain value) } ∧
      encode site.plc.positionSignal.modbus (.float s.conveyor.position) site.gateway.contract.metadata = .ok words ∧
      decode site.plc.positionSignal.modbus words site.gateway.contract.metadata = .ok value := by
  obtain ⟨same,built,_⟩ := boot_fixed site.booted
  refine (round_input runnable inputs start sole orderly writes scanned reached running read passed (same ▸ built.position)
    inputs.position readOnly.position).imp_right ?_
  rintro ⟨r,words,value,s,m,signal,result,found,tells,holds,decoded⟩
  obtain ⟨words,holds',encoded⟩ := tells.position
  cases holds_unique holds holds'
  rw [same] at encoded
  have plain := shown_plain result (signal ▸ readOnly.plainPosition)
  exact ⟨s,words,value,plain ▸ found,encoded,decoded⟩

/-- After a complete round in an orderly run, with a scan before it, the nodes of the
    published signals tell the machines as the latest scan before each poll found them. -/
theorem round_tells : Told site (before ++ [.round]) w₀ actions w where
  state := round_state runnable inputs start sole orderly writes scanned reached running read passed readOnly
  speed := round_speed runnable inputs start sole orderly writes scanned reached running read passed readOnly
  position := round_position runnable inputs start sole orderly writes scanned reached running read passed readOnly

end
end
end

theorem shipped_readOnly : ReadOnly shippedSite := ⟨rfl,rfl,rfl,rfl,rfl⟩

/-- A client's write and a scan fall into a round after the conveyor has been started. -/
theorem shipped_round_tells :
    let before := [.traffic (.write 16 10 [1500]),.traffic (.write 16 100 [1,0,0,1]),.traffic (.scan (1 / 100))]
    let actions := .read true :: .traffic (.scan (1 / 100)) :: List.replicate 4 (.read true) ++
      .publish :: .request [setpointItem 1] :: .next :: List.replicate 4 .publish
    ∃ w₀ w, run step ({} : World shippedSite) (before ++ [.round]) = some w₀ ∧ run step w₀ actions = some w ∧
      Told shippedSite (before ++ [.round]) w₀ actions w := by
  intro before actions
  obtain ⟨w₀,start⟩ := Option.isSome_iff_exists.mp
    (by decide +kernel : (run step ({} : World shippedSite) (before ++ [.round])).isSome)
  have ends : (run step ({} : World shippedSite) (before ++ [.round] ++ actions)).map
      (fun w => (w.ended,w.unread.isEmpty,w.readings.isEmpty)) = some (false,true,true) := by decide +kernel
  obtain ⟨w,reached,final⟩ := Option.map_eq_some_iff.mp ends
  simp only [Prod.mk.injEq,List.isEmpty_iff] at final
  have rest : run step w₀ actions = some w := by
    rw [run_append,start] at reached
    exact reached
  exact ⟨w₀,w,start,rest,round_tells tags_runnable shipped_inputs start (by decide) (by decide +kernel)
    (by simp [before,actions,WriteCode]) ⟨1 / 100,by simp [before]⟩ rest final.1 final.2.1 final.2.2 shipped_readOnly⟩

end MockPlant.EndToEnd
