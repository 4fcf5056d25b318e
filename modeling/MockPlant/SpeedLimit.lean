import MockPlant.ScanSafety

/-!
The speed of the conveyor and its maximum. The maximum only scales the ramp: nothing
holds the setpoint to it, and a setpoint register of 16 bits goes up to 65.535. A scan
takes the speed past the maximum exactly when it drives the conveyor towards a setpoint
above it and one step of the ramp reaches beyond it.
-/
namespace MockPlant.SpeedLimit
open MockPlant.Python MockPlant.Contract MockPlant.Codec MockPlant.Machine MockPlant.ModbusServer MockPlant.Plc
open MockPlant.Runs MockPlant.ScanCommands MockPlant.RegisterMap MockPlant.ScanSafety

/-! ### What a scan makes of the conveyor -/

/-- What a command makes of the conveyor's running. -/
def runs (fault : Bool) (code : ℕ) : Option Bool :=
  if code = CmdCode.start.toNat then (if fault then none else some true)
  else if code = CmdCode.stop.toNat then some false
  else none

/-- The conveyor runs without a fault once the scan has executed its command. -/
def drives (plc : Plc) (s : PlcState) : Bool :=
  ((executes plc s).bind (fun e => runs s.conveyor.fault e.code)).getD s.conveyor.running && !s.conveyor.fault

theorem runCommand_running (image : InputImage) (code : ℕ) (outputs : OutputImage) :
    (runCommand image code outputs).2.conveyorRunning =
      (runs image.conveyorFault code).or outputs.conveyorRunning := by
  unfold runCommand runs
  split_ifs <;> simp_all [CmdCode.toNat]

theorem execute_running {plc : Plc} {image : InputImage} {out : OutputImage} (executed : execute plc image = .ok out) :
    ∃ command, readCommand plc image = .ok command ∧
      out.conveyorRunning = (execution image command).bind (fun e => runs image.conveyorFault e.code) := by
  obtain ⟨signals,command,hSignals,hCommand,cases⟩ := execute_cases executed
  have running := (computeSignals_asks hSignals).1
  refine ⟨command,hCommand,?_⟩
  rcases cases with ⟨idle,rfl⟩ | ⟨pending,_,_,_,_,rfl⟩
  · simp [execution,idle,running]
  · simp [execution,pending,runCommand_running,running]

/-- What the next scan reads from the setpoint register. -/
def setpointReading (plc : Plc) (s : PlcState) : Except PyError PyFloat := do
  let (image,_) ← readInputs s
  readSignal image plc.setpointSignal plc.contract.metadata

/-- The parameters and the running that a completed scan steps the conveyor with. -/
theorem scan_conveyor {plc : Plc} {s s' : PlcState} {dt : ℚ} (scanned : scan plc s dt = .ok s') :
    ∃ setpoint ramp running, setpointReading plc s = .ok setpoint ∧ rampReading plc s = .ok ramp ∧
      (running && !s.conveyor.fault) = drives plc s ∧
      { s.conveyor with running := running, speedSetpoint := setpoint, rampTime := clampRamp ramp }.step dt =
        .ok s'.conveyor := by
  obtain ⟨holding,out,memory,conveyor,cnc,hHolding,hExecute,_,hConveyor,_,rfl⟩ := scan_ok.mp scanned
  obtain ⟨signals,_,hSignals,_,outSetpoint,outRamp,_⟩ := execute_ok hExecute
  obtain ⟨setpoint,ramp,_,_,_,_,hSetpoint,hRamp,_,_,_,_,rfl⟩ := computeSignals_ok.mp hSignals
  obtain ⟨command,hCommand,running⟩ := execute_running hExecute
  have inputs := readInputs_ok.mpr ⟨holding,hHolding,rfl,rfl⟩
  refine ⟨setpoint,ramp,out.conveyorRunning.getD s.conveyor.running,?_,?_,?_,?_⟩
  · exact bind_eq_ok.mpr ⟨_,inputs,hSetpoint⟩
  · exact bind_eq_ok.mpr ⟨_,inputs,hRamp⟩
  · have pending : executes plc s = execution (snapshot s holding) command := by simp [executes,inputs,hCommand]
    rw [drives,pending,running]
    rfl
  · simpa [commanded,outSetpoint,outRamp,clampRamp] using hConveyor

/-! ### One scan -/

/-- The speed is within the conveyor's limits. -/
def WithinLimits (c : Conveyor) : Prop := ∃ v : ℚ, c.speed = .fin v ∧ 0 ≤ v ∧ v ≤ c.maxSpeed

/-- A scan drives the conveyor towards a setpoint above the maximum, and one step of the
    ramp from the present speed reaches beyond it. -/
def Overdrives (plc : Plc) (s : PlcState) (dt : ℚ) : Prop :=
  drives plc s = true ∧ ∃ (setpoint ramp v : ℚ) (reading : PyFloat), setpointReading plc s = .ok (.fin setpoint) ∧
    rampReading plc s = .ok reading ∧ clampRamp reading = .fin ramp ∧ s.conveyor.speed = .fin v ∧
    s.conveyor.maxSpeed < setpoint ∧ s.conveyor.maxSpeed < v + s.conveyor.maxSpeed / ramp * dt

/-- The parameters that a completed scan of the shipped plant steps the conveyor with are
    finite, the setpoint not negative and the ramp time positive. -/
theorem scan_parameters {s s' : PlcState} {dt : ℚ} (fixed : Fixed Shipped.tags s.memory)
    (number : rampReading Shipped.plc s ≠ .ok .nan) (scanned : scan Shipped.plc s dt = .ok s') :
    ∃ (t ramp : ℚ) (reading : PyFloat) (running : Bool), setpointReading Shipped.plc s = .ok (.fin t) ∧ 0 ≤ t ∧
      rampReading Shipped.plc s = .ok reading ∧ clampRamp reading = .fin ramp ∧ 0 < ramp ∧
      (running && !s.conveyor.fault) = drives Shipped.plc s ∧
      { s.conveyor with running := running, speedSetpoint := .fin t, rampTime := .fin ramp }.step dt =
        .ok s'.conveyor := by
  obtain ⟨setpoint,reading,running,hSetpoint,hRamp,drive,stepped⟩ := scan_conveyor scanned
  obtain ⟨⟨image,_⟩,inputs,read⟩ := bind_eq_ok.mp hSetpoint
  obtain ⟨holding,hHolding,rfl,_⟩ := readInputs_ok.mp inputs
  obtain ⟨t,found,lowSetpoint,_⟩ := setpoint_read fixed hHolding
  cases read.symm.trans found
  obtain ⟨ramp,clamped,lowRamp,_⟩ := clampRamp_fin (x := reading) (fun nan => number (nan ▸ hRamp))
  rw [clamped] at stepped
  exact ⟨t,ramp,reading,running,hSetpoint,lowSetpoint,hRamp,clamped,by linarith,drive,stepped⟩

/-- A conveyor that is driven ramps towards the setpoint, any other one towards 0. -/
theorem target_driven (c : Conveyor) (running : Bool) (t : ℚ) (rampTime : PyFloat) :
    { c with running := running, speedSetpoint := .fin t, rampTime := rampTime }.target =
      .fin (if (running && !c.fault) = true then t else 0) := by
  unfold Conveyor.target
  split_ifs <;> rfl

/-- From within its limits a scan takes the conveyor out of them exactly by overdriving it. -/
theorem scan_limits {s s' : PlcState} {dt : ℚ} (fixed : Fixed Shipped.tags s.memory) (maxSpeed : 0 < s.conveyor.maxSpeed)
    (within : WithinLimits s.conveyor) (forward : 0 < dt) (number : rampReading Shipped.plc s ≠ .ok .nan)
    (scanned : scan Shipped.plc s dt = .ok s') :
    s'.conveyor.maxSpeed = s.conveyor.maxSpeed ∧ (WithinLimits s'.conveyor ↔ ¬ Overdrives Shipped.plc s dt) := by
  obtain ⟨v,speed,low,high⟩ := within
  obtain ⟨t,ramp,reading,running,hSetpoint,lowSetpoint,hRamp,clamped,rampPositive,drive,stepped⟩ :=
    scan_parameters fixed number scanned
  have target := target_driven s.conveyor running t (.fin ramp)
  rw [drive] at target
  set goal : ℚ := if drives Shipped.plc s = true then t else 0 with goes
  have nonnegative : 0 ≤ goal := by
    rw [goes]
    split_ifs
    · exact lowSetpoint
    · exact le_rfl
  obtain ⟨position,moved⟩ := Conveyor.step_speed
    (c := { s.conveyor with running := running, speedSetpoint := .fin t, rampTime := .fin ramp }) forward maxSpeed rfl
    rampPositive speed target
  have conveyor := Except.ok.inj (stepped.symm.trans moved)
  have delta : 0 < s.conveyor.maxSpeed / ramp * dt := by positivity
  have bounds := Conveyor.ramped_between delta low (le_max_left v goal) nonnegative (le_max_right v goal)
  have passes := Conveyor.ramped_le_iff (t := goal) delta high
  have overdrives : Overdrives Shipped.plc s dt ↔
      s.conveyor.maxSpeed < goal ∧ s.conveyor.maxSpeed < v + s.conveyor.maxSpeed / ramp * dt := by
    constructor
    · rintro ⟨driven,t',ramp',v',reading',hSetpoint',hRamp',clamped',speed',above,reaches⟩
      cases hSetpoint.symm.trans hSetpoint'
      cases hRamp.symm.trans hRamp'
      cases clamped.symm.trans clamped'
      cases speed.symm.trans speed'
      rw [goes,if_pos driven]
      exact ⟨above,reaches⟩
    · rintro ⟨above,reaches⟩
      have driven : drives Shipped.plc s = true := by
        by_contra stands
        rw [goes,if_neg stands] at above
        linarith
      rw [goes,if_pos driven] at above
      exact ⟨driven,t,ramp,v,reading,hSetpoint,hRamp,clamped,speed,above,reaches⟩
  rw [overdrives,← passes,conveyor]
  refine ⟨rfl,?_,fun below => ⟨_,rfl,bounds.1,below⟩⟩
  rintro ⟨v',same,_,below⟩
  cases same
  exact below

/-! ### Runs -/

/-- A completed scan leaves the speed within the limits. -/
def SpeedLimited (plc : Plc) (s : PlcState) : PlcAction → Prop
  | .scan dt => ∀ s', scan plc s dt = .ok s' → WithinLimits s'.conveyor
  | .write _ _ _ => True

def NotOverdriven (plc : Plc) (s : PlcState) : PlcAction → Prop
  | .scan dt => ¬ Overdrives plc s dt
  | .write _ _ _ => True

/-- Between the scans of a run: the registers are those of the contract and the speed is
    within the limits. -/
structure Limited (s : PlcState) : Prop where
  fixed : Fixed Shipped.tags s.memory
  maxSpeed : 0 < s.conveyor.maxSpeed
  within : WithinLimits s.conveyor

/-- The steps of a run: forward scans that complete and find a number in the ramp-time
    registers, and writes of words. -/
def Regular (s : PlcState) (a : PlcAction) : Prop :=
  Admissible a ∧ RampIsNumber Shipped.plc s a ∧ (step Shipped.plc s a).isSome

theorem Limited.agree {s : PlcState} {a : PlcAction} (limited : Limited s) (regular : Regular s a) :
    SpeedLimited Shipped.plc s a ↔ NotOverdriven Shipped.plc s a := by
  obtain ⟨admissible,number,possible⟩ := regular
  cases a with
  | write => exact Iff.rfl
  | scan dt =>
    obtain ⟨next,moved⟩ := Option.isSome_iff_exists.mp possible
    have scanned := toOption_eq_ok.mp moved
    have forward : 0 < dt := admissible
    have limits := (scan_limits limited.fixed limited.maxSpeed limited.within forward number scanned).2
    constructor
    · intro inside
      exact limits.mp (inside next scanned)
    · intro controlled next' scanned'
      cases scanned.symm.trans scanned'
      exact limits.mpr controlled

theorem Limited.next {s t : PlcState} {a : PlcAction} (limited : Limited s) (regular : Regular s a)
    (inside : SpeedLimited Shipped.plc s a) (moved : step Shipped.plc s a = some t) : Limited t := by
  obtain ⟨admissible,number,_⟩ := regular
  cases a with
  | write funcCode address values =>
    cases moved
    rw [request_eq]
    exact ⟨limited.fixed.request admissible,limited.maxSpeed,limited.within⟩
  | scan dt =>
    have scanned := toOption_eq_ok.mp moved
    have forward : 0 < dt := admissible
    have kept := (scan_limits limited.fixed limited.maxSpeed limited.within forward number scanned).1
    exact ⟨limited.fixed.scan shipped_built scanned,kept ▸ limited.maxSpeed,inside t scanned⟩

/-- In a run of the shipped plant from rest every scan leaves the speed between 0 and the
    conveyor's maximum exactly when no scan overdrives it. -/
theorem speed_limited_iff {conveyor : Conveyor} {cnc : Cnc} {plc : Plc} {s₀ s : PlcState}
    (booted : boot Shipped.tags conveyor cnc = .ok (plc,s₀)) (maxSpeed : 0 < conveyor.maxSpeed)
    (rest : conveyor.speed = .fin 0) {actions : List PlcAction} (admissible : ∀ a ∈ actions, Admissible a)
    (number : Along (step plc) (RampIsNumber plc) s₀ actions) (reached : run (step plc) s₀ actions = some s) :
    Along (step plc) (SpeedLimited plc) s₀ actions ↔ Along (step plc) (NotOverdriven plc) s₀ actions := by
  obtain ⟨_,_,fixed⟩ := boot_fixed booted
  cases Shipped.boot_tags booted
  obtain ⟨_,_,_,rfl⟩ := boot_ok.mp booted
  have limited : Limited _ := ⟨fixed,maxSpeed,0,rest,le_rfl,maxSpeed.le⟩
  refine along_congr limited (fun _ _ => Limited.agree) (fun _ _ _ => Limited.next) actions ?_
  exact (along_of_forall admissible _).and (number.and (along_of_run reached))

theorem shipped_speed_limited_iff :
    let actions := [.write 16 10 [1500],.write 16 100 [1,0,0,1],.scan (1 / 100),.write 16 12 [0x3F80,0],.scan (1 / 100)]
    Along (step Shipped.plc) (SpeedLimited Shipped.plc) Shipped.booted actions ↔
      Along (step Shipped.plc) (NotOverdriven Shipped.plc) Shipped.booted actions := by
  intro actions
  obtain ⟨s,reached⟩ := Option.isSome_iff_exists.mp
    (by decide +kernel : (run (step Shipped.plc) Shipped.booted actions).isSome)
  exact speed_limited_iff Shipped.boot_booted (by decide +kernel) rfl (by decide +kernel) (by decide +kernel) reached

/-- With the greatest setpoint the conveyor, whose maximum is 2, passes it at the 51st scan. -/
theorem setpoint_passes_maximum :
    let before := [.write 16 10 [65535],.write 16 100 [1,0,0,1]] ++ List.replicate 50 (.scan (1 / 100))
    (run (step Shipped.plc) Shipped.booted (before ++ [.scan (1 / 100)])).map
        (fun s => (s.conveyor.speed,s.conveyor.maxSpeed)) = some (.fin (51 / 25),2) ∧
      ¬ Along (step Shipped.plc) (SpeedLimited Shipped.plc) Shipped.booted (before ++ [.scan (1 / 100)]) := by
  intro before
  have ends : (run (step Shipped.plc) Shipped.booted (before ++ [.scan (1 / 100)])).map
      (fun s => (s.conveyor.speed,s.conveyor.maxSpeed)) = some (.fin (51 / 25),2) := by decide +kernel
  refine ⟨ends,fun along => ?_⟩
  obtain ⟨s,reached,same⟩ := Option.map_eq_some_iff.mp ends
  obtain ⟨t,earlier,moved⟩ := run_concat.mp reached
  obtain ⟨v,speed,_,below⟩ := (along_concat.mp along).2 t earlier s (toOption_eq_ok.mp moved)
  simp only [Prod.mk.injEq] at same
  rw [same.1] at speed
  cases speed
  rw [same.2] at below
  norm_num at below

end MockPlant.SpeedLimit
