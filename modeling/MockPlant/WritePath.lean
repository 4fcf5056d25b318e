import MockPlant.EndToEnd
import MockPlant.SpeedLimit

/-!
From the clients to the machines. The pushes of accepted writes go to the PLC one at a
time, in the order in which the writes were accepted. While nobody else writes a signal's
registers and every push is answered, the registers hold the words of the last push that
has returned, so in the end those of the last accepted write, and a scan steps the
conveyor with the setpoint they decode to.
-/
namespace MockPlant.WritePath
open MockPlant.Python MockPlant.Contract MockPlant.Codec MockPlant.Machine MockPlant.ModbusServer MockPlant.Plc
open MockPlant.Overlays MockPlant.Runs MockPlant.ScanCommands MockPlant.GatewayServer MockPlant.RegisterMap
open MockPlant.ModbusLink MockPlant.SpeedLimit MockPlant.WholePlant
open MockPlant.Provenance MockPlant.PollRounds

/-! ### The last push -/

/-- The last of the pushes of a signal. -/
def lastPush (signal : Signal) (pushes : List Push) : Option Push :=
  (pushes.filter (fun p => p.signal = signal)).getLast?

theorem lastPush_concat (signal : Signal) (pushes : List Push) (p : Push) :
    lastPush signal (pushes ++ [p]) = if p.signal = signal then some p else lastPush signal pushes := by
  unfold lastPush
  split_ifs with own <;> simp [own]

theorem lastPush_mem {signal : Signal} {pushes : List Push} {p : Push} (last : lastPush signal pushes = some p) :
    p ∈ pushes ∧ p.signal = signal := by
  have member := List.mem_of_getLast? last
  simpa using List.mem_filter.mp member

/-! ### What leaves a register alone -/

/-- A scan changes only the registers that are its own. -/
theorem scan_get {plc : Plc} (built : Built plc) {s s' : PlcState} {dt : ℚ} (scanned : scan plc s dt = .ok s') {t : Table}
    {a : ℤ} (foreign : ¬ Owned plc t a) : s'.memory.get t a = s.memory.get t a := by
  obtain ⟨_,_,_,executed,updated⟩ := scan_memory scanned
  have kept : patch _ (t,a) = none := patch_none fun w member => foreign (execute_commits built executed _ member).1
  have laid := congrFun (cells_update updated) (t,a)
  rwa [overlay_none kept] at laid

section
variable {ν : Type} [DecidableEq ν] {site : Site ν}

/-- A signal of the holding table that the scans do not publish. -/
structure Setting (site : Site ν) (signal : Signal) : Prop where
  listed : signal ∈ site.gateway.contract.signals
  table : signal.modbus.table = .holding
  unpublished : signal ∉ [site.plc.actualSignal,site.plc.positionSignal,site.plc.cncStateSignal]

omit [DecidableEq ν] in
theorem Setting.foreign {signal : Signal} (setting : Setting site signal) (runnable : Runnable site.gateway.contract) :
    ∀ a ∈ signal.modbus.span, ¬ Owned site.plc signal.modbus.table a := by
  obtain ⟨same,built,_⟩ := boot_fixed site.booted
  rintro a inside (⟨s,own,table,there⟩ | ⟨_,there⟩)
  · have listed : s ∈ site.gateway.contract.signals := by
      simp only [List.mem_cons,List.not_mem_nil,or_false] at own
      rcases own with rfl | rfl | rfl
      · exact same ▸ built.actual
      · exact same ▸ built.position
      · exact same ▸ built.cncState
    have different : signal ≠ s := by
      rintro rfl
      exact setting.unpublished own
    exact (signals_apart runnable.valid setting.listed listed different table).not_mem inside there
  · rw [same] at there
    exact ((blocks_apart runnable).2 _ setting.listed setting.table).2.not_mem inside there

/-- No other master writes the signal's registers, no request of a push is served after its
    push has returned, and every push is answered. -/
def Undisturbed (signal : Signal) (w : World site) : Action ν → Prop
  | .traffic (.write funcCode address values) =>
    funcTable funcCode = some .holding → Apart (Span.mk address (address + values.length)) signal.modbus.span
  | .push i => i = w.pushed
  | .pushReturns answered => answered = true
  | _ => True

instance (signal : Signal) : ∀ (w : World site) (a : Action ν), Decidable (Undisturbed signal w a)
  | _, .traffic (.write _ _ _) => inferInstanceAs (Decidable (_ → Apart _ _))
  | w, .push i => inferInstanceAs (Decidable (i = w.pushed))
  | _, .pushReturns answered => inferInstanceAs (Decidable (answered = true))
  | _, .traffic (.scan _) | _, .traffic (.read _ _ _) | _, .request _ | _, .next | _, .round | _, .read _ | _, .publish =>
    inferInstanceAs (Decidable True)

/-! ### Pushes in their order -/

/-- The pushes that the PLC has served. -/
def delivered (w : World site) : List Push :=
  w.server.state.pushes.take (w.pushed + if w.applied then 1 else 0)

/-- The registers of the signal hold the last push of it that the PLC has served. -/
structure Delivered (signal : Signal) (w : World site) : Prop where
  turn : w.pushed ≤ w.server.state.pushes.length
  waiting : w.applied = true → w.pushed < w.server.state.pushes.length
  holds : ∀ p, lastPush signal (delivered w) = some p → Holds w.plant.memory signal.modbus p.words

/-- The server appends to its pushes. -/
theorem step_appends {w : Server ν} {w' : Server ν} {a : GatewayServer.Action ν site.gateway.contract}
    (moved : GatewayServer.step site.gateway w a = some w') : ∃ more, w'.state.pushes = w.state.pushes ++ more := by
  have setter (s : State ν) (node : ν) (d : DataValue) :
      ∃ more, (setSignal site.gateway s node d).1.pushes = s.pushes ++ more := by
    rcases setSignal_pushes site.gateway s node d with kept | ⟨p,_,started⟩
    · exact ⟨[],by rw [kept,List.append_nil]⟩
    · exact ⟨[p],started⟩
  cases a with
  | request items =>
    cases moved
    exact ⟨[],by simp [markExternalWrite]⟩
  | next =>
    obtain ⟨item,_,_,⟨_,_,_,rfl⟩ | ⟨_,rfl⟩⟩ := step_next_cases site.gateway moved <;> rw [proceed_state]
    · exact setter _ _ _
    · exact ⟨[],by simp⟩
  | publish reading =>
    cases moved
    cases settable : writable reading.signal with
    | false => exact ⟨[],by simp [publish_quiet site.gateway w.state reading settable]⟩
    | true =>
      rw [publish_setter site.gateway w.state reading settable]
      exact setter _ _ _

variable {signal : Signal} {w w' : World site}

omit [DecidableEq ν] in
/-- New pushes are not yet delivered. -/
theorem Delivered.append (state : Delivered signal w) {server : Server ν} {more : List Push}
    (appended : server.state.pushes = w.server.state.pushes ++ more) (readings : List (Reading site.gateway.contract))
    (ended : Bool) : Delivered signal { w with server, readings, ended } := by
  have bound : w.pushed + (if w.applied then 1 else 0) ≤ w.server.state.pushes.length := by
    cases applied : w.applied with
    | true => simpa [applied] using state.waiting applied
    | false => simpa [applied] using state.turn
  refine ⟨?_,fun applied => ?_,fun p last => state.holds p ?_⟩
  · rw [appended,List.length_append]
    exact state.turn.trans (Nat.le_add_right _ _)
  · rw [appended,List.length_append]
    exact (state.waiting applied).trans_le (Nat.le_add_right _ _)
  · rw [delivered,appended,List.take_append_of_le_length bound] at last
    exact last

omit [DecidableEq ν] in
/-- A served push is the last one delivered. -/
theorem Delivered.push (state : Delivered signal w) (runnable : Runnable site.gateway.contract)
    (setting : Setting site signal) {p : Push} (found : w.server.state.pushes[w.pushed]? = some p)
    (listed : p.signal ∈ site.gateway.contract.signals) (table : p.signal.modbus.table = .holding)
    (length : p.words.length = p.signal.modbus.width) :
    Delivered signal { w with
      plant := (ModbusLink.push site.framing w.plant p).1
      applied := w.applied || (ModbusLink.push site.framing w.plant p).2.toOption.isSome } := by
  have first : w.server.state.pushes.take (w.pushed + 1) = w.server.state.pushes.take w.pushed ++ [p] := by
    rw [List.take_add_one,found]
    rfl
  cases outcome : (ModbusLink.push site.framing w.plant p).2 with
  | error e =>
    rw [push_failed outcome]
    simpa [outcome,Except.toOption] using state
  | ok =>
    have sound : PushSound site.framing w.plant p := pushSound_of_holding length fun _ => table
    obtain ⟨own,others⟩ := sound.served outcome
    simp only [Except.toOption,Option.isSome_some,Bool.or_true]
    refine ⟨state.turn,fun _ => (List.getElem?_eq_some_iff.mp found).1,fun q last => ?_⟩
    simp only [delivered,if_true,first,lastPush_concat] at last
    split_ifs at last with same
    · cases last
      subst same
      exact own
    · -- A push of another signal: the one before it is still the last.
      have before : lastPush signal (delivered w) = some q := by
        unfold delivered
        cases applied : w.applied with
        | true => simp [first,lastPush_concat,same,last]
        | false => simpa using last
      refine holds_kept (state.holds q before) fun a inside => others _ _ ?_
      rintro ⟨_,there⟩
      have apart := signals_apart runnable.valid setting.listed listed (Ne.symm same) (setting.table.trans table.symm)
      exact apart.not_mem inside there

/-- Every push of a run is of a signal in the holding table, and has its length. -/
theorem run_pushes (tables : ∀ s ∈ site.gateway.contract.signals, writable s = true → s.modbus.table = .holding)
    {actions : List (Action ν)} (reached : run step ({} : World site) actions = some w) :
    ∀ p ∈ w.server.state.pushes, PushSourced ({} : World site) actions p ∧ p.signal.modbus.table = .holding ∧
      p.words.length = p.signal.modbus.width := by
  intro p member
  have sourced := (run_grounded grounded_start reached).pushes p member
  have ⟨listed,settable,_,_,encoded⟩ := sourced
  exact ⟨sourced,tables _ listed settable,(encodeValue_isWords encoded).1⟩

/-- In an orderly run the pushes are those of clients' writes. -/
theorem pushes_written {actions : List (Action ν)} (orderly : Along step Orderly ({} : World site) actions)
    (reached : run step ({} : World site) actions = some w) : ∀ p ∈ w.server.state.pushes, ∃ d,
      Written site actions (site.gateway.nodeId p.signal) d ∧
        encodeValue p.signal.modbus d site.gateway.contract.metadata = .ok p.words := by
  refine run_induction (P := fun actions w => Along step Orderly ({} : World site) actions →
    ∀ p ∈ w.server.state.pushes, ∃ d, Written site actions (site.gateway.nodeId p.signal) d ∧
      encodeValue p.signal.modbus d site.gateway.contract.metadata = .ok p.words) ?_ ?_
    actions w reached orderly
  · intro _ p absent
    cases absent
  · intro actions w a w' before ih moved orderly
    obtain ⟨earlier,here⟩ := along_concat.mp orderly
    have steady := run_marks before earlier
    have old (p : Push) (member : p ∈ w.server.state.pushes) : ∃ d,
        Written site (actions ++ [a]) (site.gateway.nodeId p.signal) d ∧
          encodeValue p.signal.modbus d site.gateway.contract.metadata = .ok p.words := by
      obtain ⟨d,written,encoded⟩ := ih earlier p member
      exact ⟨d,written.append [a],encoded⟩
    cases a with
    | traffic =>
      obtain ⟨_,_,rfl⟩ := step_traffic moved
      exact old
    | request items =>
      obtain ⟨_,done,rfl⟩ := step_request moved
      cases done
      rw [proceed_state]
      exact old
    | next =>
      obtain ⟨server,done,rfl⟩ := step_next moved
      obtain ⟨item,_,pending,⟨reaches,_,_,rfl⟩ | ⟨_,rfl⟩⟩ := step_next_cases site.gateway done <;> rw [proceed_state]
      · intro p member
        rcases setSignal_pushes site.gateway w.server.state item.node item.datavalue with kept | ⟨q,accepted,started⟩
        · exact old p (kept ▸ member)
        · simp only [started,List.mem_append,List.mem_singleton] at member
          rcases member with known | rfl
          · exact old p known
          · obtain ⟨_,node,encoded⟩ := accept_ok site.gateway w.server.state accepted
            obtain ⟨items,requested,asked⟩ :=
              (run_grounded grounded_start before).asked item (.inl (by rw [pending]; exact List.mem_cons_self))
            exact ⟨item.datavalue,⟨items,List.mem_append_left _ requested,item,asked,reaches,node.symm,rfl⟩,encoded⟩
      · exact old
    | push i =>
      obtain ⟨_,_,_,rfl⟩ := step_push moved
      exact old
    | pushReturns =>
      obtain ⟨_,_,rfl⟩ := step_pushReturns moved
      exact old
    | round =>
      obtain ⟨_,_,_,rfl⟩ := step_round moved
      exact old
    | read =>
      obtain ⟨_,_,_,_,⟨_,_,rfl⟩ | ⟨_,rfl⟩⟩ := step_read moved <;> exact old
    | publish =>
      obtain ⟨_,_,reading,rest,_,rfl⟩ := step_publish moved
      have settled : w.server.pending = [] := here w before
      -- No node is marked, so the setter takes the publication for what it is.
      have unmarked : w.server.state.externalWrites = ∅ := by
        rw [steady.marks,settled]
        rfl
      cases settable : writable reading.signal with
      | false => simpa [publish_quiet site.gateway w.server.state reading settable] using old
      | true => simpa [publish_setter site.gateway w.server.state reading settable,setSignal,unmarked,State.store] using old

/-- In every undisturbed run the registers hold the last push that the PLC has served. -/
theorem run_delivered (runnable : Runnable site.gateway.contract)
    (tables : ∀ s ∈ site.gateway.contract.signals, writable s = true → s.modbus.table = .holding)
    (setting : Setting site signal) {actions : List (Action ν)}
    (undisturbed : Along step (Undisturbed signal) ({} : World site) actions)
    (reached : run step ({} : World site) actions = some w) : Delivered signal w := by
  refine run_induction (P := fun actions w => Along step (Undisturbed signal) ({} : World site) actions →
    Delivered signal w) ?_ ?_ actions w reached undisturbed
  · intro _
    refine ⟨le_rfl,fun applied => ?_,fun p last => ?_⟩
    · cases applied
    · cases last
  · intro actions w a w' before ih moved undisturbed
    obtain ⟨earlier,here⟩ := along_concat.mp undisturbed
    have state := ih earlier
    have allowed := here w before
    obtain ⟨same,built,_⟩ := boot_fixed site.booted
    cases a with
    | traffic a =>
      obtain ⟨plant,served,rfl⟩ := step_traffic moved
      refine ⟨state.turn,state.waiting,fun p last => holds_kept (state.holds p last) fun a' inside => ?_⟩
      cases a with
      | scan dt => exact scan_get built (toOption_eq_ok.mp served) (setting.foreign runnable a' inside)
      | read =>
        cases served
        rfl
      | write funcCode address values =>
        cases served
        rw [setting.table]
        refine request_get fun holding => ?_
        have outside := (allowed holding).symm.not_mem inside
        simp only [Span.mem_def] at outside
        omega
    | request items =>
      obtain ⟨server,done,rfl⟩ := step_request moved
      obtain ⟨more,appended⟩ := step_appends done
      exact state.append appended _ _
    | next =>
      obtain ⟨server,done,rfl⟩ := step_next moved
      obtain ⟨more,appended⟩ := step_appends done
      exact state.append appended _ _
    | push i =>
      obtain ⟨p,found,_,rfl⟩ := step_push moved
      obtain rfl : i = w.pushed := allowed
      obtain ⟨sourced,table,length⟩ := run_pushes tables before p (List.mem_of_getElem? found)
      simpa using state.push runnable setting found sourced.1 table length
    | pushReturns answered =>
      obtain ⟨turn,answers,rfl⟩ := step_pushReturns moved
      have applied := answers allowed
      refine ⟨turn,fun absent => ?_,fun p last => state.holds p ?_⟩
      · cases absent
      · simpa [delivered,applied] using last
    | round =>
      obtain ⟨_,_,_,rfl⟩ := step_round moved
      exact ⟨state.turn,state.waiting,state.holds⟩
    | read =>
      obtain ⟨_,_,_,_,⟨_,_,rfl⟩ | ⟨_,rfl⟩⟩ := step_read moved <;> exact ⟨state.turn,state.waiting,state.holds⟩
    | publish =>
      obtain ⟨_,_,reading,rest,_,rfl⟩ := step_publish moved
      have publishes : GatewayServer.step site.gateway w.server (.publish reading) = some
          { w.server with state := (GatewayServer.publish site.gateway w.server.state reading).1 } := rfl
      obtain ⟨more,appended⟩ := step_appends publishes
      exact state.append appended _ _

/-! ### The last accepted write -/

/-- The registers of a signal hold a push: polls read it, and when they are the setpoint's
    a scan steps the conveyor with what it decodes to. -/
structure Stands (w : World site) (signal : Signal) (listed : signal ∈ site.gateway.contract.signals) (p : Push) : Prop where
  holds : Holds w.plant.memory signal.modbus p.words
  polled : ∀ answered reading words value, w.poll answered ⟨signal,listed⟩ = .ok reading →
    reading.result = some (words,value) →
    words = p.words ∧ decode signal.modbus p.words site.gateway.contract.metadata = .ok value
  driven : signal = site.plc.setpointSignal → ∀ dt s', scan site.plc w.plant dt = .ok s' →
    ∃ value, decode signal.modbus p.words site.gateway.contract.metadata = .ok value ∧
      s'.conveyor.speedSetpoint = value.toFloat

end

theorem mapM_words {holding : Registers} {addresses : List ℤ} {words : List ℕ}
    (same : List.Forall₂ (fun a w => holding a = some w) addresses words) :
    addresses.mapM (fun a => lookup (holding a)) = .ok words := by
  induction same with
  | nil => rfl
  | cons here _ ih =>
    rw [List.mapM_cons,here,ih]
    rfl

/-- The words that a snapshot has at a signal's addresses. -/
theorem readSignal_holds {s : PlcState} {holding : Registers} (hHolding : s.memory .holding = some holding) {signal : Signal}
    (table : signal.modbus.table = .holding) {words : List ℕ} (holds : Holds s.memory signal.modbus words) (metadata : Meta) :
    Plc.readSignal (snapshot s holding) signal metadata =
      (decode signal.modbus words metadata).map Value.toFloat := by
  have same : List.Forall₂ (fun a w => (snapshot s holding).holding a = some w) signal.modbus.span.toList words := by
    have length : signal.modbus.span.toList.length = signal.modbus.width := by simp [Span.toList,ModbusMapping.span]
    refine List.forall₂_iff_get.mpr ⟨length.trans holds.1.symm,fun i first second => ?_⟩
    have here := holds.2 i (length ▸ first)
    rw [List.getElem?_eq_getElem second,table] at here
    simp only [Memory.get,hHolding,Option.bind_some] at here
    simpa [Span.toList,ModbusMapping.span,snapshot] using here.symm
  rw [Plc.readSignal,mapM_words same]
  cases decoded : decode signal.modbus words metadata <;>
    simp [decoded,Except.map,bind,Except.bind,pure,Except.pure]

theorem step_setpoint {c c' : Conveyor} {dt : ℚ} (stepped : c.step dt = .ok c') : c'.speedSetpoint = c.speedSetpoint := by
  obtain ⟨_,_,done⟩ := bind_eq_ok.mp stepped
  cases done
  rfl

section
variable {ν : Type} [DecidableEq ν] {site : Site ν} {signal : Signal} {w : World site}

omit [DecidableEq ν] in
theorem stands (setting : Setting site signal) {p : Push} (holds : Holds w.plant.memory signal.modbus p.words) :
    Stands w signal setting.listed p := by
  refine ⟨holds,fun answered reading words value poll good => ?_,fun own dt s' scanned => ?_⟩
  · obtain ⟨holds',decoded⟩ := poll_good poll good (by rw [setting.table]; rfl)
    cases holds_unique holds' holds
    exact ⟨rfl,decoded⟩
  · obtain ⟨setpoint,ramp,running,read,_,_,stepped⟩ := scan_conveyor scanned
    obtain ⟨⟨image,_⟩,inputs,found⟩ := bind_eq_ok.mp read
    obtain ⟨holding,hHolding,rfl,_⟩ := readInputs_ok.mp inputs
    subst own
    have same := (boot_fixed site.booted).1
    simp only [readSignal_holds hHolding setting.table holds,same] at found
    cases decoded : decode site.plc.setpointSignal.modbus p.words site.gateway.contract.metadata with
    | error e => simp [decoded,Except.map] at found
    | ok value =>
      simp only [decoded,Except.map,Except.ok.injEq] at found
      exact ⟨value,rfl,(step_setpoint stepped).trans found.symm⟩

/-- In an undisturbed run, when all pushes have returned, the registers of a setting hold the
    last push of it: it encodes a value that its node may show, in an orderly run what a
    client has written; polls read it back, and the scans drive the conveyor with it, to
    half a step of the scale. -/
theorem last_write_stands (runnable : Runnable site.gateway.contract)
    (tables : ∀ s ∈ site.gateway.contract.signals, writable s = true → s.modbus.table = .holding)
    (setting : Setting site signal) {actions : List (Action ν)}
    (undisturbed : Along step (Undisturbed signal) ({} : World site) actions)
    (reached : run step ({} : World site) actions = some w) (settled : w.pushed = w.server.state.pushes.length) {p : Push}
    (last : lastPush signal w.server.state.pushes = some p) :
    Stands w signal setting.listed p ∧ ∃ d, Sourced ({} : World site) actions (site.gateway.nodeId signal) d ∧
      (Along step Orderly ({} : World site) actions → Written site actions (site.gateway.nodeId signal) d) ∧
      encodeValue signal.modbus d site.gateway.contract.metadata = .ok p.words ∧
      ((intBounds signal.modbus.type).isSome → ∃ value v x r, d.value = some (.plain value) ∧ value.toFloat.rat? = some v ∧
        decode signal.modbus p.words site.gateway.contract.metadata = .ok (.float x) ∧ x.rat? = some r ∧
        |r - v| ≤ |signal.modbus.scale| / 2) := by
  have state := run_delivered runnable tables setting undisturbed reached
  have whole : delivered w = w.server.state.pushes := List.take_of_length_le (by omega)
  obtain ⟨member,rfl⟩ := lastPush_mem last
  refine ⟨stands setting (state.holds p (whole ▸ last)),?_⟩
  have near {d : DataValue} (encoded : encodeValue p.signal.modbus d site.gateway.contract.metadata = .ok p.words)
      (integer : (intBounds p.signal.modbus.type).isSome) : ∃ value v x r, d.value = some (.plain value) ∧
        value.toFloat.rat? = some v ∧ decode p.signal.modbus p.words site.gateway.contract.metadata = .ok (.float x) ∧
        x.rat? = some r ∧ |r - v| ≤ |p.signal.modbus.scale| / 2 := by
    obtain ⟨value,plain,encodes⟩ := encodeValue_int integer encoded
    obtain ⟨v,x,r,rest⟩ := decode_encode_near integer encodes
    exact ⟨value,v,x,r,plain,rest⟩
  by_cases orderly : Along step Orderly ({} : World site) actions
  · obtain ⟨d,written,encoded⟩ := pushes_written orderly reached p member
    exact ⟨d,.written written,fun _ => written,encoded,near encoded⟩
  · obtain ⟨⟨_,_,d,source,encoded⟩,_,_⟩ := run_pushes tables reached p member
    exact ⟨d,source,fun holds => absurd holds orderly,encoded,near encoded⟩

end

theorem shipped_setting : Setting shippedSite Shipped.speedSetpoint := ⟨by decide +kernel,rfl,by decide +kernel⟩

/-- Two writes of the setpoint: the first one's request is served twice, and the second one
    is accepted before the first has returned. -/
theorem shipped_last_write_stands :
    let actions := .round :: shippedPoll ++ [.request [setpointItem 1],.next,.push 0,.request [setpointItem 2],.next,
      .push 0,.pushReturns true,.traffic (.scan (1 / 100)),.push 1,.pushReturns true,.traffic (.write 16 12 [0,0])]
    ∃ w p, run step ({} : World shippedSite) actions = some w ∧ p.words = [2000] ∧
      Stands w Shipped.speedSetpoint shipped_setting.listed p := by
  intro actions
  obtain ⟨w,reached⟩ := Option.isSome_iff_exists.mp
    (by decide +kernel : (run step ({} : World shippedSite) actions).isSome)
  have evaluated : (run step ({} : World shippedSite) actions).map (fun w =>
      (decide (w.pushed = w.server.state.pushes.length),lastPush Shipped.speedSetpoint w.server.state.pushes)) =
      some (true,some ⟨Shipped.speedSetpoint,[2000]⟩) := by decide +kernel
  rw [reached,Option.map_some,Option.some.injEq,Prod.mk.injEq,decide_eq_true_eq] at evaluated
  exact ⟨w,_,reached,rfl,(last_write_stands tags_runnable (by decide +kernel) shipped_setting (by decide +kernel) reached
    evaluated.1 evaluated.2).1⟩

end MockPlant.WritePath
