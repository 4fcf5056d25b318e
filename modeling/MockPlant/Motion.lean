import MockPlant.Ramps
import MockPlant.SpeedLimit

/-!
The motion of the conveyor under any writes. Setpoint, ramp time and running can all be
others at every scan, but a scan only ever approaches its own target by what its ramp time
allows: so the acceleration is bounded, the speed stays among the setpoints read so far,
and the belt never runs backwards.
-/
namespace MockPlant.Motion
open MockPlant.Python MockPlant.Contract MockPlant.Machine MockPlant.Plc MockPlant.Runs MockPlant.Ramps
open MockPlant.ScanCommands MockPlant.RegisterMap MockPlant.ScanSafety MockPlant.SpeedLimit

/-- The setpoint that a scan decodes. -/
def decoded (plc : Plc) (s : PlcState) : PlcAction → PlcState → List ℚ
  | .scan _, _ =>
    match setpointReading plc s with
    | .ok setpoint => setpoint.rat?.toList
    | .error _ => []
  | .write _ _ _, _ => []

/-- The setpoints decoded in a run, in order. -/
def setpoints (plc : Plc) (s₀ : PlcState) (actions : List PlcAction) : List ℚ := log (step plc) (decoded plc) s₀ actions

/-- What a scan finds: the speed and the position of the conveyor, the setpoint, the target
    that the scan drives it to and the clamped ramp time. -/
structure Finds (plc : Plc) (s : PlcState) (v p setpoint target ramp : ℚ) : Prop where
  atSpeed : s.conveyor.speed = .fin v
  atPosition : s.conveyor.position.rat? = some p
  decodes : setpointReading plc s = .ok (.fin setpoint)
  drives : target = if drives plc s = true then setpoint else 0
  clamps : ∃ reading, rampReading plc s = .ok reading ∧ clampRamp reading = .fin ramp

/-- A scan changes the speed by no more than its ramp time allows, keeps it between the old
    speed and the target and among the setpoints seen, and does not move backwards. -/
structure Moderate (maxSpeed dt ramp target : ℚ) (seen : List ℚ) (v v' p p' : ℚ) : Prop where
  acceleration : |v' - v| ≤ maxSpeed * dt / ramp
  greatest : ∀ least, RAMP_TIME_MIN = .fin least → |v' - v| ≤ maxSpeed * dt / least
  nonnegative : 0 ≤ v'
  seen : ∃ most ∈ seen, v' ≤ most
  between : min v target ≤ v' ∧ v' ≤ max v target
  forward : p ≤ p'

/-! ### One scan -/

section
variable {s s' : PlcState} {dt v p : ℚ} (fixed : Fixed Shipped.tags s.memory) (maxPositive : 0 < s.conveyor.maxSpeed)
  (speed : s.conveyor.speed = .fin v) (position : s.conveyor.position.rat? = some p) (forward : 0 < dt)
  (number : rampReading Shipped.plc s ≠ .ok .nan) (scanned : scan Shipped.plc s dt = .ok s')
include fixed maxPositive speed position forward number scanned

/-- A completed scan approaches its target and moves on by the new speed. -/
theorem scan_approaches : ∃ setpoint target ramp, Finds Shipped.plc s v p setpoint target ramp ∧ 1 / 20 ≤ ramp ∧
    0 ≤ target ∧ target ≤ setpoint ∧ s'.conveyor.maxSpeed = s.conveyor.maxSpeed ∧
    s'.conveyor.speed = .fin (approach (s.conveyor.maxSpeed / ramp * dt) target v) ∧
    s'.conveyor.position.rat? = some (p + approach (s.conveyor.maxSpeed / ramp * dt) target v * dt) := by
  obtain ⟨setpoint,ramp,reading,running,hSetpoint,lowSetpoint,hRamp,clamped,rampPositive,drive,stepped⟩ :=
    scan_parameters fixed number scanned
  obtain ⟨ramp',clamped',lowRamp,_⟩ := clampRamp_fin (x := reading) (fun nan => number (nan ▸ hRamp))
  cases clamped.symm.trans clamped'
  have target := target_driven s.conveyor running setpoint (.fin ramp)
  rw [drive] at target
  have moved := Conveyor.step_motion
    (c := { s.conveyor with running := running, speedSetpoint := .fin setpoint, rampTime := .fin ramp }) forward
    maxPositive rfl rampPositive speed target
  have conveyor := Except.ok.inj (stepped.symm.trans moved)
  refine ⟨setpoint,_,ramp,⟨speed,position,hSetpoint,rfl,reading,hRamp,clamped⟩,lowRamp,?_,?_,?_,?_,?_⟩
  · split_ifs
    · exact lowSetpoint
    · exact le_rfl
  · split_ifs
    · exact le_rfl
    · exact lowSetpoint
  · rw [conveyor]
  · rw [conveyor]
    rfl
  · rw [conveyor]
    exact PyFloat.add_rat position rfl

/-- A completed scan is moderate, as far as the setpoint it decodes itself. -/
theorem scan_moderate {seen : List ℚ} (low : 0 ≤ v) (before : v = 0 ∨ ∃ most ∈ seen, v ≤ most) :
    ∃ setpoint target ramp v' p', Finds Shipped.plc s v p setpoint target ramp ∧
      s'.conveyor.maxSpeed = s.conveyor.maxSpeed ∧ s'.conveyor.speed = .fin v' ∧
      s'.conveyor.position.rat? = some p' ∧
      Moderate s.conveyor.maxSpeed dt ramp target (seen ++ [setpoint]) v v' p p' := by
  obtain ⟨setpoint,target,ramp,finds,lowRamp,lowTarget,highTarget,kept,speed',position'⟩ :=
    scan_approaches fixed maxPositive speed position forward number scanned
  have rampPositive : 0 < ramp := by linarith
  have delta : 0 ≤ s.conveyor.maxSpeed / ramp * dt := by positivity
  have rate : |approach (s.conveyor.maxSpeed / ramp * dt) target v - v| ≤ s.conveyor.maxSpeed * dt / ramp := by
    rw [← div_mul_eq_mul_div]
    exact abs_approach_sub delta
  have bounds : min v target ≤ _ ∧ _ ≤ max v target := approach_between delta
  have nonnegative := (le_min low lowTarget).trans bounds.1
  refine ⟨setpoint,target,ramp,_,_,finds,kept,speed',position',rate,?_,nonnegative,?_,bounds,?_⟩
  · rintro least ⟨⟩
    refine rate.trans ?_
    gcongr
  · -- The larger of the old speed and the target is among the setpoints.
    rcases max_choice v target with old | new
    · rcases before with rfl | ⟨most,member,below⟩
      · refine ⟨setpoint,by simp,?_⟩
        rw [old] at bounds
        exact bounds.2.trans (lowTarget.trans highTarget)
      · rw [old] at bounds
        exact ⟨most,List.mem_append_left _ member,bounds.2.trans below⟩
    · rw [new] at bounds
      exact ⟨setpoint,by simp,bounds.2.trans highTarget⟩
  · exact le_add_of_nonneg_right (mul_nonneg nonnegative forward.le)

end

/-! ### Runs -/

/-- Between the scans of a run: the registers are those of the contract, and the speed is
    0 or among the setpoints seen. -/
structure Moving (maxSpeed : ℚ) (seen : List ℚ) (s : PlcState) : Prop where
  fixed : Fixed Shipped.tags s.memory
  maxSpeed : s.conveyor.maxSpeed = maxSpeed
  speed : ∃ v : ℚ, s.conveyor.speed = .fin v ∧ 0 ≤ v ∧ (v = 0 ∨ ∃ most ∈ seen, v ≤ most)
  position : ∃ p : ℚ, s.conveyor.position.rat? = some p

theorem Finds.decoded {plc : Plc} {s s' : PlcState} {v p setpoint target ramp dt : ℚ}
    (finds : Finds plc s v p setpoint target ramp) : decoded plc s (.scan dt) s' = [setpoint] := by
  simp [Motion.decoded,finds.decodes,PyFloat.rat?]

theorem Moving.scan {maxSpeed dt : ℚ} {seen : List ℚ} {s s' : PlcState} (moving : Moving maxSpeed seen s)
    (maxPositive : 0 < maxSpeed) (forward : 0 < dt) (number : rampReading Shipped.plc s ≠ .ok .nan)
    (scanned : scan Shipped.plc s dt = .ok s') :
    Moving maxSpeed (seen ++ decoded Shipped.plc s (.scan dt) s') s' ∧
      ∃ v p setpoint target ramp v' p', Finds Shipped.plc s v p setpoint target ramp ∧ s'.conveyor.speed = .fin v' ∧
        s'.conveyor.position.rat? = some p' ∧
        Moderate maxSpeed dt ramp target (seen ++ decoded Shipped.plc s (.scan dt) s') v v' p p' := by
  obtain ⟨fixed,rfl,⟨v,speed,low,before⟩,p,position⟩ := moving
  obtain ⟨setpoint,target,ramp,v',p',finds,kept,speed',position',moderate⟩ :=
    scan_moderate fixed maxPositive speed position forward number scanned low before
  rw [finds.decoded]
  refine ⟨⟨fixed.scan shipped_built scanned,kept,⟨v',speed',moderate.nonnegative,.inr moderate.seen⟩,p',position'⟩,?_⟩
  exact ⟨v,p,setpoint,target,ramp,v',p',finds,speed',position',moderate⟩

theorem Moving.step {maxSpeed : ℚ} {seen : List ℚ} {s t : PlcState} {a : PlcAction} (moving : Moving maxSpeed seen s)
    (maxPositive : 0 < maxSpeed) (admissible : Admissible a) (number : RampIsNumber Shipped.plc s a)
    (moved : step Shipped.plc s a = some t) : Moving maxSpeed (seen ++ decoded Shipped.plc s a t) t := by
  cases a with
  | scan dt => exact (moving.scan maxPositive admissible number (toOption_eq_ok.mp moved)).1
  | write funcCode address values =>
    cases moved
    rw [request_eq,decoded,List.append_nil]
    exact ⟨moving.fixed.request admissible,moving.maxSpeed,moving.speed,moving.position⟩

theorem moving_run {maxSpeed : ℚ} (maxPositive : 0 < maxSpeed) {s₀ : PlcState} (start : Moving maxSpeed [] s₀)
    {actions : List PlcAction} {s : PlcState} (admissible : ∀ a ∈ actions, Admissible a)
    (number : Along (step Shipped.plc) (RampIsNumber Shipped.plc) s₀ actions)
    (reached : run (step Shipped.plc) s₀ actions = some s) : Moving maxSpeed (setpoints Shipped.plc s₀ actions) s := by
  refine run_induction (P := fun actions s => (∀ a ∈ actions, Admissible a) →
    Along (step Shipped.plc) (RampIsNumber Shipped.plc) s₀ actions → Moving maxSpeed (setpoints Shipped.plc s₀ actions) s)
    (fun _ _ => start) ?_ actions s reached admissible number
  intro actions s a t before ih moved admissible number
  obtain ⟨earlier,here⟩ := along_concat.mp number
  have moving := ih (fun b member => admissible b (List.mem_append_left _ member)) earlier
  rw [setpoints,log_concat before moved]
  exact moving.step maxPositive (admissible a (by simp)) (here s before) moved

/-- In a run of the shipped plant from rest in which no scan reads a NaN as the ramp time,
    every completed scan is moderate, with the setpoints decoded as far as it. -/
theorem scans_moderate {conveyor : Conveyor} {cnc : Cnc} {plc : Plc} {s₀ : PlcState}
    (booted : boot Shipped.tags conveyor cnc = .ok (plc,s₀)) (maxSpeed : 0 < conveyor.maxSpeed)
    (rest : conveyor.speed = .fin 0) {p₀ : ℚ} (position : conveyor.position.rat? = some p₀) {actions : List PlcAction}
    (admissible : ∀ a ∈ actions, Admissible a) (number : Along (step plc) (RampIsNumber plc) s₀ actions)
    {earlier later : List PlcAction} {dt : ℚ} (split : actions = earlier ++ .scan dt :: later) {s s' : PlcState}
    (reached : run (step plc) s₀ earlier = some s) (scanned : scan plc s dt = .ok s') :
    ∃ v p setpoint target ramp v' p', Finds plc s v p setpoint target ramp ∧ s'.conveyor.speed = .fin v' ∧
      s'.conveyor.position.rat? = some p' ∧
      Moderate conveyor.maxSpeed dt ramp target (setpoints plc s₀ (earlier ++ [.scan dt])) v v' p p' := by
  subst split
  obtain ⟨_,_,fixed⟩ := boot_fixed booted
  cases Shipped.boot_tags booted
  obtain ⟨_,_,_,rfl⟩ := boot_ok.mp booted
  simp only [List.forall_mem_append,List.forall_mem_cons] at admissible
  obtain ⟨before,here,_⟩ := (along_append _ _ _).mp number |>.imp_right fun rest => rest s reached
  have moving := moving_run maxSpeed ⟨fixed,rfl,⟨0,rest,le_rfl,.inl rfl⟩,p₀,position⟩ admissible.1 before reached
  have moved : step Shipped.plc s (.scan dt) = some s' := toOption_eq_ok.mpr scanned
  rw [setpoints,log_concat reached moved]
  exact (moving.scan maxSpeed admissible.2.1 here scanned).2

/-- A start towards 3/2 that is stopped again before it gets there. -/
theorem scans_moderate_stopping :
    let earlier := [.write 16 10 [1500],.write 16 100 [1,0,0,1],.scan (1 / 100),.write 16 100 [2,0,0,2]]
    ∃ (s s' : PlcState) (v p setpoint target ramp v' p' : ℚ), run (step Shipped.plc) Shipped.booted earlier = some s ∧
      Finds Shipped.plc s v p setpoint target ramp ∧ s'.conveyor.speed = .fin v' ∧ s'.conveyor.position.rat? = some p' ∧
      Moderate 2 (1 / 100) ramp target (setpoints Shipped.plc Shipped.booted (earlier ++ [.scan (1 / 100)])) v v' p p' := by
  intro earlier
  obtain ⟨s',last⟩ := Option.isSome_iff_exists.mp
    (by decide +kernel : (run (step Shipped.plc) Shipped.booted (earlier ++ [.scan (1 / 100)])).isSome)
  obtain ⟨s,reached,moved⟩ := run_concat.mp last
  obtain ⟨v,p,setpoint,target,ramp,v',p',moderate⟩ := scans_moderate Shipped.boot_booted (by decide +kernel) rfl
    (rfl : Shipped.conveyor.position.rat? = some 0) (by decide +kernel) (by decide +kernel)
    (rfl : earlier ++ [.scan (1 / 100)] = earlier ++ .scan (1 / 100) :: []) reached (toOption_eq_ok.mp moved)
  exact ⟨s,s',v,p,setpoint,target,ramp,v',p',reached,moderate⟩

end MockPlant.Motion
