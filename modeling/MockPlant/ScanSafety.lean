import MockPlant.RegisterMap

/-!
When a scan of the shipped plant can fail. The registers a master writes reach the
machines through the clamp of the ramp time, which lets a NaN through: the NaN
becomes the ramp time, then the speed, and the next scan cannot encode the speed.
Nothing else that a master writes makes a scan fail.
-/
namespace MockPlant.ScanSafety
open MockPlant.Python MockPlant.Contract MockPlant.Codec MockPlant.Machine MockPlant.ModbusServer MockPlant.Plc
open MockPlant.Runs MockPlant.ScanCommands MockPlant.RegisterMap

/-! ### The ramp time -/

def clampRamp (ramp : PyFloat) : PyFloat := PyFloat.pyMin (PyFloat.pyMax ramp RAMP_TIME_MIN) RAMP_TIME_MAX

def RampInRange (s : PlcState) : Prop := RAMP_TIME_MIN.le s.conveyor.rampTime ∧ s.conveyor.rampTime.le RAMP_TIME_MAX

instance (s : PlcState) : Decidable (RampInRange s) := inferInstanceAs (Decidable (_ ∧ _))

/-- The comparisons of the clamp are false on a NaN, which passes. -/
theorem clampRamp_nan : clampRamp .nan = .nan := rfl

theorem clampRamp_fin {x : PyFloat} (number : x ≠ .nan) :
    ∃ ramp : ℚ, clampRamp x = .fin ramp ∧ 1 / 20 ≤ ramp ∧ ramp ≤ 60 := by
  cases x with
  | nan => exact absurd rfl number
  | posInf => exact ⟨60,by decide +kernel,by norm_num,le_rfl⟩
  | negInf | negZero => exact ⟨1 / 20,by decide +kernel,le_rfl,by norm_num⟩
  | fin q =>
    by_cases low : q < 1 / 20
    · refine ⟨1 / 20,?_,le_rfl,by norm_num⟩
      have under : ¬ (60 : ℚ) < 1 / 20 := by norm_num
      simp only [clampRamp,PyFloat.pyMax,PyFloat.pyMin,RAMP_TIME_MIN,RAMP_TIME_MAX,PyFloat.lt_fin,low,under,
        decide_true,decide_false,Bool.false_eq_true,if_true,if_false]
    · by_cases high : 60 < q
      · refine ⟨60,?_,by norm_num,le_rfl⟩
        simp only [clampRamp,PyFloat.pyMax,PyFloat.pyMin,RAMP_TIME_MIN,RAMP_TIME_MAX,PyFloat.lt_fin,low,high,
          decide_false,decide_true,Bool.false_eq_true,if_false,if_true]
      · refine ⟨q,?_,not_lt.mp low,not_lt.mp high⟩
        simp only [clampRamp,PyFloat.pyMax,PyFloat.pyMin,RAMP_TIME_MIN,RAMP_TIME_MAX,PyFloat.lt_fin,low,high,
          decide_false,Bool.false_eq_true,if_false]

/-- What the next scan reads from the ramp-time registers. -/
def rampReading (plc : Plc) (s : PlcState) : Except PyError PyFloat := do
  let (image,_) ← readInputs s
  readSignal image plc.rampSignal plc.contract.metadata

/-- A completed scan leaves the clamped reading as the ramp time. -/
theorem scan_ramp {plc : Plc} {s s' : PlcState} {dt : ℚ} (scanned : scan plc s dt = .ok s') :
    ∃ ramp, rampReading plc s = .ok ramp ∧ s'.conveyor.rampTime = clampRamp ramp := by
  obtain ⟨holding,out,memory,conveyor,cnc,hHolding,hExecute,_,hConveyor,_,rfl⟩ := scan_ok.mp scanned
  obtain ⟨signals,_,hSignals,_,_,ramp,_⟩ := execute_ok hExecute
  obtain ⟨_,reading,_,_,_,_,_,hReading,_,_,_,_,rfl⟩ := computeSignals_ok.mp hSignals
  refine ⟨reading,?_,?_⟩
  · simp only [rampReading,bind_eq_ok,Prod.exists]
    exact ⟨_,_,readInputs_ok.mpr ⟨holding,hHolding,rfl,rfl⟩,hReading⟩
  · obtain ⟨slope,_,done⟩ := bind_eq_ok.mp hConveyor
    cases done
    simp [commanded,ramp,clampRamp]

/-! ### What a scan needs -/

theorem mapM_lookup {holding : Registers} {addresses : List ℤ}
    (mapped : ∀ a ∈ addresses, ∃ w, holding a = some w ∧ w < 65536) :
    ∃ words, addresses.mapM (fun a => lookup (holding a)) = .ok words ∧ words.length = addresses.length ∧
      ∀ w ∈ words, w < 65536 := by
  induction addresses with
  | nil => exact ⟨[],rfl,rfl,by simp⟩
  | cons a rest ih =>
    obtain ⟨w,found,small⟩ := mapped a (by simp)
    obtain ⟨words,looked,length,fits⟩ := ih (fun b member => mapped b (List.mem_cons_of_mem _ member))
    refine ⟨w :: words,?_,by simp [length],List.forall_mem_cons.mpr ⟨small,fits⟩⟩
    simp only [List.mapM_cons,lookup_eq_ok.mpr found,looked,bind,Except.bind,pure,Except.pure]

/-- Reading a mapped signal decodes words of its type. -/
theorem readSignal_decodes {image : InputImage} {signal : Signal} (metadata : Meta)
    (mapped : ∀ a ∈ signal.modbus.span, ∃ w, image.holding a = some w ∧ w < 65536) :
    ∃ words, IsWords signal.modbus.type words ∧ ∀ value, decode signal.modbus words metadata = .ok value →
      readSignal image signal metadata = .ok value.toFloat := by
  obtain ⟨words,looked,length,fits⟩ := mapM_lookup fun a member => mapped a (Span.mem_toList.mp member)
  refine ⟨words,⟨?_,fits⟩,fun value decoded => ?_⟩
  · simp [length,Span.toList,ModbusMapping.span,ModbusMapping.width]
  · simp [readSignal,looked,decoded,bind,Except.bind,pure,Except.pure]

/-- A finite position is within the sizes that its registers can hold. -/
def PositionFits (s : PlcState) : Prop := ∀ q, s.conveyor.position = .fin q → |q| ≤ Binary32.largest

instance (s : PlcState) : Decidable (PositionFits s) :=
  match found : s.conveyor.position with
  | .fin q => decidable_of_iff (|q| ≤ Binary32.largest) (by simp [PositionFits,found])
  | .negZero | .posInf | .negInf | .nan => isTrue (by simp [PositionFits,found])

/-- Between the scans of the shipped plant: its registers are those of the contract, with
    words in them, and the speed is one that its register can show. -/
private structure Healthy (s : PlcState) : Prop where
  fixed : Fixed Shipped.tags s.memory
  speed : ∃ v : ℚ, s.conveyor.speed = .fin v ∧ 0 ≤ v ∧ v ≤ 65535 / 1000
  maxSpeed : 0 < s.conveyor.maxSpeed
  durations : ∀ state ∈ cycleOrder, (s.cnc.durations state).isSome

section
variable {s : PlcState} {holding : Registers} (fixed : Fixed Shipped.tags s.memory)
  (hHolding : s.memory .holding = some holding)
include fixed hHolding

theorem setpoint_read :
    ∃ t : ℚ, readSignal (snapshot s holding) Shipped.speedSetpoint Shipped.metadata = .ok (.fin t) ∧ 0 ≤ t ∧
      t ≤ 65535 / 1000 := by
  obtain ⟨words,isWords,reads⟩ := readSignal_decodes Shipped.metadata
    (fixed.holding_words hHolding (by decide +kernel : Shipped.speedSetpoint ∈ Shipped.tags.signals) rfl)
  obtain ⟨n,low,high,decoded⟩ := @decode_int Shipped.speedSetpoint.modbus 0 65535 Shipped.metadata rfl
    (by norm_num [Shipped.speedSetpoint]) words isWords
  have lowRat : (0 : ℚ) ≤ n := by exact_mod_cast low
  have highRat : (n : ℚ) ≤ 65535 := by exact_mod_cast high
  refine ⟨_,reads _ decoded,?_,?_⟩ <;> simp only [Shipped.speedSetpoint] <;> linarith

theorem ramp_read : ∃ ramp, readSignal (snapshot s holding) Shipped.rampTime Shipped.metadata = .ok ramp := by
  obtain ⟨words,isWords,reads⟩ := readSignal_decodes Shipped.metadata
    (fixed.holding_words hHolding (by decide +kernel : Shipped.rampTime ∈ Shipped.tags.signals) rfl)
  obtain ⟨x,decoded⟩ := @decode_float Shipped.rampTime.modbus Shipped.metadata rfl words isWords
  exact ⟨_,reads _ decoded⟩

end

private theorem speed_encoded {s : PlcState} (healthy : Healthy s) : ∃ words,
    encode Shipped.actualSpeed.modbus (.float s.conveyor.speed) Shipped.metadata = .ok words := by
  obtain ⟨v,speed,low,high⟩ := healthy.speed
  refine @encode_int Shipped.actualSpeed.modbus 0 65535 Shipped.metadata rfl (by norm_num [Shipped.actualSpeed]) _ v
    (by simp [Value.toFloat,speed]) ?_ ?_
  · simp only [Shipped.actualSpeed]
    norm_num
    linarith
  · simp only [Shipped.actualSpeed]
    norm_num
    linarith

private theorem position_encoded {s : PlcState} (fits : PositionFits s) : ∃ words,
    encode Shipped.position.modbus (.float s.conveyor.position) Shipped.metadata = .ok words :=
  encode_float Shipped.metadata rfl rfl fits

private theorem state_encoded (state : CncState) : ∃ code words, Shipped.plc.cncCodes state = some code ∧
    encode Shipped.cncState.modbus (.int code) Shipped.metadata = .ok words := by
  have known : ∃ code : ℤ, Shipped.plc.cncCodes state = some code ∧ 0 ≤ code ∧ code ≤ 65535 := by
    cases state with
    | idle => exact ⟨0,by decide +kernel,by decide,by decide⟩
    | homing => exact ⟨1,by decide +kernel,by decide,by decide⟩
    | loading => exact ⟨2,by decide +kernel,by decide,by decide⟩
    | running => exact ⟨3,by decide +kernel,by decide,by decide⟩
    | unloading => exact ⟨4,by decide +kernel,by decide,by decide⟩
    | fault => exact ⟨5,by decide +kernel,by decide,by decide⟩
  obtain ⟨code,found,low,high⟩ := known
  have lowRat : ((0 : ℤ) : ℚ) ≤ code := by exact_mod_cast low
  have highRat : (code : ℚ) ≤ ((65535 : ℤ) : ℚ) := by exact_mod_cast high
  obtain ⟨words,encoded⟩ := @encode_int Shipped.cncState.modbus 0 65535 Shipped.metadata rfl
    (by norm_num [Shipped.cncState]) (.int code) code rfl
    (by simpa only [Shipped.cncState,div_one] using lowRat) (by simpa only [Shipped.cncState,div_one] using highRat)
  exact ⟨code,words,found,encoded⟩

/-- The first half of a scan completes, with bounded parameters. -/
private theorem signals_computed {s : PlcState} {holding : Registers} (healthy : Healthy s) (fits : PositionFits s)
    (hHolding : s.memory .holding = some holding) :
    ∃ signals, computeSignals Shipped.plc (snapshot s holding) = .ok signals ∧
      (∃ t : ℚ, signals.conveyorSpeedSetpoint = some (.fin t) ∧ 0 ≤ t ∧ t ≤ 65535 / 1000) ∧
      ∃ ramp, rampReading Shipped.plc s = .ok ramp ∧ signals.conveyorRampTime = some (clampRamp ramp) := by
  obtain ⟨t,hSetpoint,low,high⟩ := setpoint_read healthy.fixed hHolding
  obtain ⟨ramp,hRamp⟩ := ramp_read healthy.fixed hHolding
  obtain ⟨speedWords,hSpeed⟩ := speed_encoded healthy
  obtain ⟨positionWords,hPosition⟩ := position_encoded fits
  obtain ⟨code,stateWords,hCode,hState⟩ := state_encoded s.cnc.state
  refine ⟨_,computeSignals_ok.mpr ⟨_,ramp,speedWords,positionWords,code,stateWords,hSetpoint,hRamp,hSpeed,hPosition,
    hCode,hState,rfl⟩,⟨t,rfl,low,high⟩,ramp,?_,rfl⟩
  simp only [rampReading,bind_eq_ok,Prod.exists]
  exact ⟨_,_,readInputs_ok.mpr ⟨holding,hHolding,rfl,rfl⟩,hRamp⟩

/-- With bounded parameters both machines step, and the speed stays bounded. -/
private theorem machines_step {s : PlcState} {out : OutputImage} {dt t ramp : ℚ} (healthy : Healthy s)
    (forward : 0 < dt) (setpoint : out.conveyorSpeedSetpoint = some (.fin t)) (lowSetpoint : 0 ≤ t)
    (highSetpoint : t ≤ 65535 / 1000) (ramps : out.conveyorRampTime = some (.fin ramp)) (rampPositive : 0 < ramp) :
    ∃ conveyor cnc, (commanded s out).1.step dt = .ok conveyor ∧ (commanded s out).2.step dt = .ok cnc ∧
      conveyor.rampTime = .fin ramp ∧ conveyor.maxSpeed = s.conveyor.maxSpeed ∧
      (∃ v : ℚ, conveyor.speed = .fin v ∧ 0 ≤ v ∧ v ≤ 65535 / 1000) ∧ cnc.durations = s.cnc.durations := by
  obtain ⟨v,speed,low,high⟩ := healthy.speed
  have newRamp : (commanded s out).1.rampTime = .fin ramp := by simp [commanded,ramps]
  have newSetpoint : (commanded s out).1.speedSetpoint = .fin t := by simp [commanded,setpoint]
  obtain ⟨v',position,stepped,low',high'⟩ := Conveyor.step_ramps (c := (commanded s out).1) forward healthy.maxSpeed
    newRamp rampPositive speed low high newSetpoint lowSetpoint highSetpoint
  have durations : (commanded s out).2.durations = s.cnc.durations := by
    simp only [commanded]
    split_ifs <;> simp [Cnc.start_durations,Cnc.reset_durations]
  obtain ⟨cnc,cncStepped,kept⟩ := Cnc.step_ok (c := (commanded s out).2) (durations ▸ healthy.durations) dt
  exact ⟨_,cnc,stepped,cncStepped,newRamp,rfl,⟨v',rfl,low',high'⟩,kept.trans durations⟩

/-- A scan that reads a ramp time other than a NaN completes and leaves the plant as
    it needs it for the next one. -/
private theorem scan_completes {s : PlcState} {dt : ℚ} (healthy : Healthy s) (fits : PositionFits s) (forward : 0 < dt)
    (number : rampReading Shipped.plc s ≠ .ok .nan) :
    ∃ s', scan Shipped.plc s dt = .ok s' ∧ Healthy s' ∧ RampInRange s' := by
  have blocks : BlocksMapped Shipped.plc s := healthy.fixed.blocks shipped_runnable
  obtain ⟨r,before⟩ := regs_exist shipped_runnable shipped_built blocks
  obtain ⟨holding,hHolding⟩ := Option.isSome_iff_exists.mp ((healthy.fixed.tables .holding).mpr (by decide +kernel))
  obtain ⟨signals,hSignals,⟨t,setpoint,lowSetpoint,highSetpoint⟩,ramp,reading,rampOut⟩ :=
    signals_computed healthy fits hHolding
  obtain ⟨_,_,_,_,_,_,hAckSeq,hAckResult,_⟩ := fields_exist shipped_runnable shipped_built
  have hCommand := readCommand_regs shipped_runnable shipped_built hHolding before
  obtain ⟨out,executed⟩ := execute_completes hSignals hCommand hAckResult hAckSeq
  obtain ⟨signals',_,hSignals',_,outSetpoint,outRamp,_⟩ := execute_ok executed
  cases hSignals'.symm.trans hSignals
  obtain ⟨memory,updated⟩ : ∃ memory, s.memory.update out.memoryUpdates = .ok memory := by
    refine Memory.update_exists fun u member => ?_
    obtain ⟨e,entry,table,_⟩ := owned_entry shipped_built (execute_commits shipped_built executed u member).1
    exact (healthy.fixed.tables _).mpr ⟨e,entry,table⟩
  obtain ⟨ramp',clamped,lowRamp,highRamp⟩ := clampRamp_fin (x := ramp) (fun nan => number (nan ▸ reading))
  obtain ⟨conveyor,cnc,conveyorStep,cncStep,newRamp,maxSpeed,speed,durations⟩ := machines_step healthy forward
    (outSetpoint.trans setpoint) lowSetpoint highSetpoint (outRamp.trans (rampOut.trans (congrArg some clamped)))
    (by linarith)
  have scanned := scan_ok.mpr ⟨holding,out,memory,conveyor,cnc,hHolding,executed,updated,conveyorStep,cncStep,rfl⟩
  refine ⟨_,scanned,⟨healthy.fixed.scan shipped_built scanned,speed,maxSpeed ▸ healthy.maxSpeed,
    durations ▸ healthy.durations⟩,?_⟩
  simp only [RampInRange,newRamp,RAMP_TIME_MIN,RAMP_TIME_MAX,PyFloat.le_fin,decide_eq_true_eq]
  exact ⟨lowRamp,highRamp⟩

/-! ### Runs -/

/-- A scan forward in time, or a write of words. -/
def Admissible : PlcAction → Prop
  | .scan dt => 0 < dt
  | .write _ _ values => ∀ w ∈ values, w < 65536

instance : ∀ a : PlcAction, Decidable (Admissible a)
  | .scan dt => inferInstanceAs (Decidable (0 < dt))
  | .write _ _ values => inferInstanceAs (Decidable (∀ w ∈ values, w < 65536))

/-- A scan completes and leaves the ramp time between its limits. -/
def ScanSound (plc : Plc) (s : PlcState) : PlcAction → Prop
  | .scan dt =>
    match scan plc s dt with
    | .ok s' => RampInRange s'
    | .error _ => False
  | .write _ _ _ => True

instance (plc : Plc) (s : PlcState) : ∀ a : PlcAction, Decidable (ScanSound plc s a)
  | .scan dt =>
    show Decidable (match scan plc s dt with | .ok s' => RampInRange s' | .error _ => False) from
    match scan plc s dt with
    | .ok s' => inferInstanceAs (Decidable (RampInRange s'))
    | .error _ => inferInstanceAs (Decidable False)
  | .write _ _ _ => inferInstanceAs (Decidable True)

/-- A scan reads a ramp time that is not a NaN. -/
def RampIsNumber (plc : Plc) (s : PlcState) : PlcAction → Prop
  | .scan _ => rampReading plc s ≠ .ok .nan
  | .write _ _ _ => True

instance (plc : Plc) (s : PlcState) : ∀ a : PlcAction, Decidable (RampIsNumber plc s a)
  | .scan _ => inferInstanceAs (Decidable (rampReading plc s ≠ .ok .nan))
  | .write _ _ _ => inferInstanceAs (Decidable True)

theorem rampIsNumber_of_scanSound {plc : Plc} {s : PlcState} {a : PlcAction} (sound : ScanSound plc s a) :
    RampIsNumber plc s a := by
  cases a with
  | write => trivial
  | scan dt =>
    intro nan
    simp only [ScanSound] at sound
    cases scanned : scan plc s dt with
    | error e => simp [scanned] at sound
    | ok s' =>
      obtain ⟨ramp,reading,ramps⟩ := scan_ramp scanned
      cases reading.symm.trans nan
      simp only [scanned,RampInRange,ramps,clampRamp_nan] at sound
      exact absurd sound.1 (by decide)

private theorem healthy_boot {conveyor : Conveyor} {cnc : Cnc} {s : PlcState}
    (booted : boot Shipped.tags conveyor cnc = .ok (Shipped.plc,s)) (maxSpeed : 0 < conveyor.maxSpeed)
    (rest : conveyor.speed = .fin 0) (durations : ∀ state ∈ cycleOrder, (cnc.durations state).isSome) : Healthy s := by
  obtain ⟨_,_,fixed⟩ := boot_fixed booted
  obtain ⟨_,_,_,rfl⟩ := boot_ok.mp booted
  exact ⟨fixed,⟨0,rest,le_rfl,by norm_num⟩,maxSpeed,durations⟩

private theorem healthy_request {s : PlcState} (healthy : Healthy s) {funcCode : ℕ} {address : ℤ} {values : List ℕ}
    (words : ∀ w ∈ values, w < 65536) : Healthy (request s funcCode address values) := by
  rw [request_eq]
  exact ⟨healthy.fixed.request words,healthy.speed,healthy.maxSpeed,healthy.durations⟩

private theorem healthy_step {s t : PlcState} {a : PlcAction} (healthy : Healthy s)
    (meets : RampIsNumber Shipped.plc s a ∧ PositionFits s ∧ Admissible a) (moved : step Shipped.plc s a = some t) :
    Healthy t := by
  obtain ⟨number,fits,admissible⟩ := meets
  cases a with
  | scan dt =>
    obtain ⟨s',scanned,healthy',_⟩ := scan_completes healthy fits admissible number
    cases scanned.symm.trans (toOption_eq_ok.mp moved)
    exact healthy'
  | write funcCode address values =>
    cases moved
    exact healthy_request healthy admissible

private theorem scanSound_of_healthy {s : PlcState} {a : PlcAction} (healthy : Healthy s)
    (meets : RampIsNumber Shipped.plc s a ∧ PositionFits s ∧ Admissible a) : ScanSound Shipped.plc s a := by
  obtain ⟨number,fits,admissible⟩ := meets
  cases a with
  | scan dt =>
    obtain ⟨s',scanned,_,inRange⟩ := scan_completes healthy fits admissible number
    simp only [ScanSound,scanned]
    exact inRange
  | write => trivial

/-- In a run of the shipped plant from rest, every scan completes with the ramp time in
    its limits exactly when no scan reads a NaN from the ramp-time registers. The ramp
    time at boot plays no part: the first scan replaces it. -/
theorem scans_sound_iff {conveyor : Conveyor} {cnc : Cnc} {plc : Plc} {s₀ : PlcState}
    (booted : boot Shipped.tags conveyor cnc = .ok (plc,s₀)) (maxSpeed : 0 < conveyor.maxSpeed)
    (rest : conveyor.speed = .fin 0) (durations : ∀ state ∈ cycleOrder, (cnc.durations state).isSome)
    {actions : List PlcAction} (admissible : ∀ a ∈ actions, Admissible a)
    (fits : Along (step plc) (fun s _ => PositionFits s) s₀ actions) :
    Along (step plc) (ScanSound plc) s₀ actions ↔ Along (step plc) (RampIsNumber plc) s₀ actions := by
  cases Shipped.boot_tags booted
  constructor
  · exact fun sound => sound.imp fun _ _ => rampIsNumber_of_scanSound
  · intro number
    exact along_of_invariant (healthy_boot booted maxSpeed rest durations) (fun _ _ _ => healthy_step)
      (fun _ _ => scanSound_of_healthy) actions (number.and (fits.and (along_of_forall admissible s₀)))

theorem shipped_scans_sound_iff :
    let actions := [.write 16 12 [0x7F80,0],.scan (1 / 100),.write 16 100 [1,0,0,1],.write 16 10 [1500],.scan (1 / 100)]
    Along (step Shipped.plc) (ScanSound Shipped.plc) Shipped.booted actions ↔
      Along (step Shipped.plc) (RampIsNumber Shipped.plc) Shipped.booted actions :=
  scans_sound_iff Shipped.boot_booted (by decide +kernel) rfl (by decide +kernel) (by decide +kernel)
    (by decide +kernel)

/-- A NaN in the ramp-time registers leaves a NaN as the ramp time, and the scan after
    it raises on encoding the speed. -/
theorem nan_ramp_stops_scans :
    let actions := [.write 16 12 [0x7FC0,0],.scan (1 / 100),.scan (1 / 100)]
    (∀ a ∈ actions, Admissible a) ∧ Along (step Shipped.plc) (fun s _ => PositionFits s) Shipped.booted actions ∧
      ¬ Along (step Shipped.plc) (ScanSound Shipped.plc) Shipped.booted actions ∧
      (run (step Shipped.plc) Shipped.booted (actions.take 2)).map
        (fun s => (s.conveyor.rampTime,raised (scan Shipped.plc s (1 / 100)))) = some (.nan,some .valueError) := by
  decide +kernel

end MockPlant.ScanSafety
