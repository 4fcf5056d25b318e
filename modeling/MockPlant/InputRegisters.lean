import MockPlant.RegisterMap

/-!
The input registers. No write function code selects their table, so only a scan
changes them: it publishes there the speed, the position and the CNC state of its
snapshot, and until the next scan they tell the state that it started from.
-/
namespace MockPlant.InputRegisters
open MockPlant.Python MockPlant.Contract MockPlant.Codec MockPlant.Machine MockPlant.ModbusServer MockPlant.Plc
open MockPlant.Rounding MockPlant.Overlays MockPlant.Runs MockPlant.ScanCommands MockPlant.RegisterMap

/-! ### The code table -/

theorem byName_name {signals : List Signal} {name : String} {s : Signal} (found : byName signals name = .ok s) :
    s.name = name := by
  simpa using List.find?_some (lookup_eq_ok.mp found)

/-- A state's code stands in the table that the codes were made of, or was there before. -/
theorem cncCodesOf_some {states : List (ℤ × String)} {before codes : CncState → Option ℤ}
    (made : cncCodesOf states before = .ok codes) {state : CncState} {code : ℤ} (found : codes state = some code) :
    (code,state.value) ∈ states ∨ before state = some code := by
  induction states generalizing before with
  | nil =>
    cases made
    exact .inr found
  | cons entry rest ih =>
    obtain ⟨first,name⟩ := entry
    simp only [cncCodesOf] at made
    cases known : CncState.ofName? name with
    | none => simp [known] at made
    | some named =>
      simp only [known] at made
      rcases ih made with later | assigned
      · exact .inl (List.mem_cons_of_mem _ later)
      · by_cases same : state = named
        · subst same
          simp only [Function.update_self,Option.some.injEq] at assigned
          subst assigned
          rw [CncState.ofName?_eq_some known]
          exact .inl List.mem_cons_self
        · rw [Function.update_of_ne same] at assigned
          exact .inr assigned

theorem lookup_of_mem {states : List (ℤ × String)} (distinct : (states.map (·.1)).Nodup) {code : ℤ} {name : String}
    (listed : (code,name) ∈ states) : states.lookup code = some name := by
  induction states with
  | nil => cases listed
  | cons entry rest ih =>
    obtain ⟨first,other⟩ := entry
    rw [List.map_cons,List.nodup_cons] at distinct
    rcases List.mem_cons.mp listed with same | later
    · cases same
      simp
    · have different : code ≠ first := by
        rintro rfl
        exact distinct.1 (List.mem_map.mpr ⟨(code,name),later,rfl⟩)
      rw [List.lookup_cons,beq_false_of_ne different]
      exact ih distinct.2 later

/-- The gateway's reading of a state register: decode, `int` and the table of the states. -/
def stateName (signal : Signal) (states : List (ℤ × String)) (words : List ℕ) (metadata : Meta) :
    Except PyError String := do
  let value ← decode signal.modbus words metadata
  let code ← value.toInt
  lookup (states.lookup code)

/-- What the PLC encodes for a state the gateway reads back as its name. -/
theorem stateName_encode {signal : Signal} {states : List (ℤ × String)} {metadata : Meta} {codes : CncState → Option ℤ}
    (declared : signal.opcua.states = some states) (distinct : (states.map (·.1)).Nodup)
    (made : cncCodesFor signal = .ok codes) (integer : (intBounds signal.modbus.type).isSome)
    (unscaled : signal.modbus.scale = 1) {state : CncState} {code : ℤ} (found : codes state = some code)
    {words : List ℕ} (encoded : encode signal.modbus (.int code) metadata = .ok words) :
    stateName signal states words metadata = .ok state.value := by
  obtain ⟨⟨lo,hi⟩,bounds⟩ := Option.isSome_iff_exists.mp integer
  obtain ⟨_,v,finite,decoded⟩ := decode_encode_int bounds encoded
  cases finite
  have whole : roundHalfEven ((code : ℚ) / signal.modbus.scale) = code := by
    rw [unscaled,div_one,roundHalfEven_intCast]
  rw [whole,unscaled,PyFloat.mul_fin_pos _ one_pos,mul_one] at decoded
  have listed : (code,state.value) ∈ states := by
    simp only [cncCodesFor,declared] at made
    rcases cncCodesOf_some made found with here | before
    · exact here
    · cases before
  have truncated : (Value.float (.fin (code : ℚ))).toInt = .ok code := by simp [Value.toInt,PyFloat.toInt]
  simp only [stateName,decoded,bind,Except.bind,truncated,lookup_of_mem distinct listed,lookup]

/-! ### What a scan publishes -/

/-- The updates of `execute`: the three signals and then, if anything, the ack block. -/
theorem execute_publishes {plc : Plc} {image : InputImage} {out : OutputImage} (executed : execute plc image = .ok out) :
    ∃ speedWords positionWords code stateWords ack,
      encode plc.actualSignal.modbus (.float image.conveyorSpeed) plc.contract.metadata = .ok speedWords ∧
      encode plc.positionSignal.modbus (.float image.conveyorPosition) plc.contract.metadata = .ok positionWords ∧
      plc.cncCodes image.cncState = some code ∧
      encode plc.cncStateSignal.modbus (.int code) plc.contract.metadata = .ok stateWords ∧
      out.memoryUpdates = spanUpdates plc.actualSignal.modbus speedWords ++
        spanUpdates plc.positionSignal.modbus positionWords ++ spanUpdates plc.cncStateSignal.modbus stateWords ++ ack ∧
      ∀ u ∈ ack, u.1 = plc.contract.ackBlock.table := by
  obtain ⟨signals,command,hSignals,_,_,_,acknowledges⟩ := execute_ok executed
  obtain ⟨_,_,speedWords,positionWords,code,stateWords,_,_,hSpeed,hPosition,hCode,hState,rfl⟩ :=
    computeSignals_ok.mp hSignals
  rcases acknowledges with ⟨_,updates⟩ | ⟨e,resultIdx,seqIdx,_,_,_,updates⟩
  · exact ⟨speedWords,positionWords,code,stateWords,[],hSpeed,hPosition,hCode,hState,by simp [updates],by simp⟩
  · exact ⟨speedWords,positionWords,code,stateWords,_,hSpeed,hPosition,hCode,hState,updates,
      fun u member => (ackUpdates_mem member).1⟩

/-- What the registers of the published signals tell of the machines: the speed to half a
    step of its scale, the position as it is encoded and the state by its name. -/
structure Tells (plc : Plc) (m : Memory) (conveyor : Conveyor) (cnc : Cnc) : Prop where
  speed : (intBounds plc.actualSignal.modbus.type).isSome → ∃ words v x r, Holds m plc.actualSignal.modbus words ∧
    conveyor.speed.rat? = some v ∧ decode plc.actualSignal.modbus words plc.contract.metadata = .ok (.float x) ∧
    x.rat? = some r ∧ |r - v| ≤ |plc.actualSignal.modbus.scale| / 2
  position : ∃ words, Holds m plc.positionSignal.modbus words ∧
    encode plc.positionSignal.modbus (.float conveyor.position) plc.contract.metadata = .ok words
  state : ∃ words states, Holds m plc.cncStateSignal.modbus words ∧ plc.cncStateSignal.opcua.states = some states ∧
    stateName plc.cncStateSignal states words plc.contract.metadata = .ok cnc.state.value

/-- What the construction of a PLC takes for the signals it publishes. -/
theorem new_published {contract : Contract} {plc : Plc} (created : Plc.new contract = .ok plc) :
    plc.actualSignal.name = "Conveyor1.ActualSpeed" ∧ plc.positionSignal.name = "Conveyor1.Position" ∧
      plc.cncStateSignal.name = "Cnc.State" ∧ cncCodesFor plc.cncStateSignal = .ok plc.cncCodes := by
  simp only [Plc.new,bind_eq_ok] at created
  obtain ⟨_,_,actual,hActual,_,_,position,hPosition,state,hState,codes,hCodes,done⟩ := created
  cases done
  exact ⟨byName_name hActual,byName_name hPosition,byName_name hState,hCodes⟩

/-- Where the published signals of a contract are to be: in the input table, the state as
    an integer register without a scale, its codes the keys of a dictionary. -/
structure Inputs (plc : Plc) : Prop where
  actual : plc.actualSignal.modbus.table = .input
  position : plc.positionSignal.modbus.table = .input
  state : plc.cncStateSignal.modbus.table = .input
  integer : (intBounds plc.cncStateSignal.modbus.type).isSome
  unscaled : plc.cncStateSignal.modbus.scale = 1
  codes : ∀ states, plc.cncStateSignal.opcua.states = some states → (states.map (·.1)).Nodup

/-- The assignments of one signal fall on no register of another. -/
theorem spanUpdates_away {contract : Contract} (valid : validate contract = .ok ()) {a b : Signal}
    (aListed : a ∈ contract.signals) (bListed : b ∈ contract.signals) (different : a.name ≠ b.name) (words : List ℕ) :
    ∀ u ∈ spanUpdates b.modbus words, u.1 = a.modbus.table → u.2.1 ∉ a.modbus.span := by
  intro u member same
  obtain ⟨table,inside,_⟩ := spanUpdates_mem member
  have apart := signals_apart valid bListed aListed (fun equal => different (by rw [equal])) (table.symm.trans same)
  exact apart.not_mem inside

theorem cncCodesFor_states {signal : Signal} {codes : CncState → Option ℤ} (made : cncCodesFor signal = .ok codes) :
    ∃ states, signal.opcua.states = some states := by
  unfold cncCodesFor at made
  cases found : signal.opcua.states with
  | none => simp [found] at made
  | some states => exact ⟨states,rfl⟩

/-- A completed scan leaves the input registers telling the machines it started with. -/
theorem scan_tells {plc : Plc} (runnable : Runnable plc.contract) (created : Plc.new plc.contract = .ok plc)
    (inputs : Inputs plc) {s t : PlcState} {dt : ℚ} (scanned : scan plc s dt = .ok t) :
    Tells plc t.memory s.conveyor s.cnc := by
  obtain ⟨_,built⟩ := new_built created
  obtain ⟨actualName,positionName,stateName,made⟩ := new_published created
  obtain ⟨holding,out,_,executed,updated⟩ := scan_memory scanned
  obtain ⟨speedWords,positionWords,code,stateWords,ack,hSpeed,hPosition,hCode,hState,updates,acked⟩ :=
    execute_publishes executed
  rw [updates] at updated
  -- Nothing that is committed later falls on the registers of another signal.
  have ackAway {mapping : ModbusMapping} (table : mapping.table = .input) :
      ∀ u ∈ ack, u.1 = mapping.table → u.2.1 ∉ mapping.span := by
    intro u member same
    rw [acked u member,runnable.ackTable,table] at same
    cases same
  have positionSpeed := spanUpdates_away runnable.valid built.actual built.position
    (by rw [actualName,positionName]; decide) positionWords
  have stateSpeed := spanUpdates_away runnable.valid built.actual built.cncState
    (by rw [actualName,stateName]; decide) stateWords
  have statePosition := spanUpdates_away runnable.valid built.position built.cncState
    (by rw [positionName,stateName]; decide) stateWords
  constructor
  · intro integer
    obtain ⟨v,x,r,finite,decoded,rational,near⟩ := decode_encode_near integer hSpeed
    refine ⟨speedWords,v,x,r,?_,finite,decoded,rational,near⟩
    have order : ([] : List (Table × ℤ × ℕ)) ++ spanUpdates plc.actualSignal.modbus speedWords ++
        (spanUpdates plc.positionSignal.modbus positionWords ++ spanUpdates plc.cncStateSignal.modbus stateWords ++ ack) =
        spanUpdates plc.actualSignal.modbus speedWords ++ spanUpdates plc.positionSignal.modbus positionWords ++
          spanUpdates plc.cncStateSignal.modbus stateWords ++ ack := by simp
    rw [← order] at updated
    refine holds_update (encode_isWords hSpeed).1 ?_ updated
    simp only [List.forall_mem_append]
    exact ⟨⟨positionSpeed,stateSpeed⟩,ackAway inputs.actual⟩
  · refine ⟨positionWords,?_,hPosition⟩
    rw [List.append_assoc] at updated
    refine holds_update (encode_isWords hPosition).1 ?_ updated
    rw [List.forall_mem_append]
    exact ⟨statePosition,ackAway inputs.position⟩
  · obtain ⟨states,declared⟩ := cncCodesFor_states made
    refine ⟨stateWords,states,?_,declared,?_⟩
    · exact holds_update (encode_isWords hState).1 (ackAway inputs.state) updated
    · exact stateName_encode declared (inputs.codes states declared) made inputs.integer inputs.unscaled hCode hState

/-! ### Runs -/

/-- A write request reaches the store only with one of the function codes that write. -/
def WriteCode : Traffic → Prop
  | .write funcCode _ _ => funcCode ∈ [5,6,15,16,22,23]
  | _ => True

instance : ∀ a : Traffic, Decidable (WriteCode a)
  | .write funcCode _ _ => inferInstanceAs (Decidable (funcCode ∈ [5,6,15,16,22,23]))
  | .scan _ | .read _ _ _ => inferInstanceAs (Decidable True)

/-- A request changes no input register. -/
theorem serve_input {plc : Plc} {s t : PlcState} {a : Traffic} (writes : WriteCode a) (request : a.isScan = false)
    (served : serve plc s a = some t) : t.memory .input = s.memory .input := by
  cases a with
  | scan dt => cases request
  | read =>
    cases served
    rfl
  | write funcCode address values =>
    cases served
    unfold Plc.request
    cases done : setValues s.memory funcCode address values with
    | error e => rfl
    | ok memory =>
      obtain ⟨name,table,code,_,rfl⟩ := setValues_ok done
      have other : name ≠ .input := by
        rintro rfl
        simp only [WriteCode,List.mem_cons,List.not_mem_nil,or_false] at writes
        rcases writes with rfl | rfl | rfl | rfl | rfl | rfl <;> cases code
      exact Function.update_of_ne other.symm _ _

theorem run_input {plc : Plc} {s t : PlcState} {actions : List Traffic} (writes : ∀ a ∈ actions, WriteCode a)
    (requests : ∀ a ∈ actions, a.isScan = false) (reached : run (serve plc) s actions = some t) :
    t.memory .input = s.memory .input := by
  induction actions generalizing s with
  | nil =>
    cases reached
    rfl
  | cons a rest ih =>
    obtain ⟨next,served,later⟩ := Option.bind_eq_some_iff.mp reached
    have kept := ih (fun b member => writes b (List.mem_cons_of_mem _ member))
      (fun b member => requests b (List.mem_cons_of_mem _ member)) later
    rw [kept,serve_input (writes a List.mem_cons_self) (requests a List.mem_cons_self) served]

theorem Tells.congr {plc : Plc} (inputs : Inputs plc) {m m' : Memory} {conveyor : Conveyor} {cnc : Cnc}
    (tells : Tells plc m conveyor cnc) (same : m' .input = m .input) : Tells plc m' conveyor cnc := by
  constructor
  · intro integer
    obtain ⟨words,v,x,r,holds,rest⟩ := tells.speed integer
    exact ⟨words,v,x,r,holds.congr (by rw [inputs.actual,same]),rest⟩
  · obtain ⟨words,holds,encoded⟩ := tells.position
    exact ⟨words,holds.congr (by rw [inputs.position,same]),encoded⟩
  · obtain ⟨words,states,holds,rest⟩ := tells.state
    exact ⟨words,states,holds.congr (by rw [inputs.state,same]),rest⟩

/-- The step leaves the input registers alone unless it is a scan. -/
def KeepsInputs (plc : Plc) (s : PlcState) (a : Traffic) : Prop :=
  a.isScan = false → ∀ t, serve plc s a = some t → t.memory .input = s.memory .input

/-- In every run of scans and requests the input registers tell, after a scan, the machines
    that the latest scan started with, and no request changes them. -/
theorem input_registers_tell {contract : Contract} {conveyor : Conveyor} {cnc : Cnc} {plc : Plc} {s₀ : PlcState}
    (runnable : Runnable contract) (booted : boot contract conveyor cnc = .ok (plc,s₀)) (inputs : Inputs plc)
    {actions : List Traffic} (writes : ∀ a ∈ actions, WriteCode a) {s : PlcState}
    (reached : run (serve plc) s₀ actions = some s) :
    (∀ earlier dt later before, actions = earlier ++ .scan dt :: later → (∀ a ∈ later, a.isScan = false) →
      run (serve plc) s₀ earlier = some before → Tells plc s.memory before.conveyor before.cnc) ∧
    Along (serve plc) (KeepsInputs plc) s₀ actions := by
  have created := (boot_ok.mp booted).1
  obtain ⟨rfl,_⟩ := new_built created
  constructor
  · rintro earlier dt later before rfl requests start
    rw [run_append,start,Option.bind_some] at reached
    obtain ⟨t,served,rest⟩ := Option.bind_eq_some_iff.mp reached
    have tells := scan_tells runnable created inputs (toOption_eq_ok.mp served)
    refine tells.congr inputs (run_input (fun a member => writes a ?_) requests rest)
    exact List.mem_append_right _ (List.mem_cons_of_mem _ member)
  · refine (along_of_forall writes s₀).imp fun s a write request t served => ?_
    exact serve_input write request served

theorem shipped_inputs : Inputs Shipped.plc where
  actual := rfl
  position := rfl
  state := rfl
  integer := rfl
  unscaled := rfl
  codes := by
    rintro states declared
    cases declared
    decide

/-- Two scans with a started conveyor, and requests that leave its speed where it is read. -/
theorem shipped_input_registers_tell :
    let earlier := [.write 16 10 [1500],.write 16 100 [1,0,0,1],.scan (1 / 100)]
    let later := [.read 4 20 1,.write 6 20 [7],.write 16 40 [9]]
    ∃ before s, run (serve Shipped.plc) Shipped.booted earlier = some before ∧
      run (serve Shipped.plc) Shipped.booted (earlier ++ .scan (1 / 100) :: later) = some s ∧
      Tells Shipped.plc s.memory before.conveyor before.cnc := by
  intro earlier later
  obtain ⟨before,start⟩ := Option.isSome_iff_exists.mp
    (by decide +kernel : (run (serve Shipped.plc) Shipped.booted earlier).isSome)
  obtain ⟨s,reached⟩ := Option.isSome_iff_exists.mp
    (by decide +kernel : (run (serve Shipped.plc) Shipped.booted (earlier ++ .scan (1 / 100) :: later)).isSome)
  exact ⟨before,s,start,reached,(input_registers_tell tags_runnable Shipped.boot_booted shipped_inputs (by decide) reached).1
    earlier (1 / 100) later before rfl (by decide) start⟩

end MockPlant.InputRegisters
