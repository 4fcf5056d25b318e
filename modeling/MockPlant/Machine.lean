import MockPlant.Python

/-!
The two machines of the plant, stepped by the scan: the conveyor, which ramps its
speed towards a target, and the CNC, which runs one timed cycle at a time.
-/
namespace MockPlant.Machine
open MockPlant.Python

structure Conveyor where
  rampTime : PyFloat
  maxSpeed : ℚ
  speedSetpoint : PyFloat := .fin 0
  running : Bool := false
  fault : Bool := false
  position : PyFloat := .fin 0
  speed : PyFloat := .fin 0

namespace Conveyor

/-- The speed a step heads for: the setpoint only while running without a fault. -/
def target (c : Conveyor) : PyFloat := if c.running && !c.fault then c.speedSetpoint else .fin 0

def step (c : Conveyor) (dt : ℚ) : Except PyError Conveyor := do
  let slope ← (PyFloat.fin c.maxSpeed).div c.rampTime
  let maxDelta := slope.mul (.fin dt)
  let delta := c.target.sub c.speed
  let speed := if delta.abs.le maxDelta then c.target else c.speed.add (maxDelta.copysign delta)
  pure { c with speed := speed, position := c.position.add (speed.mul (.fin dt)) }

/-- Whether a step completes does not depend on the conveyor's running. -/
theorem step_running {c c' : Conveyor} {dt : ℚ} (running : Bool) (stepped : { c with running := running }.step dt = .ok c') :
    ∃ c'', c.step dt = .ok c'' := by
  obtain ⟨slope,divided,_⟩ := bind_eq_ok.mp stepped
  exact ⟨_,bind_eq_ok.mpr ⟨slope,divided,rfl⟩⟩

theorem target_fin {c : Conveyor} {t b : ℚ} (setpoint : c.speedSetpoint = .fin t) (low : 0 ≤ t) (high : t ≤ b) :
    ∃ t', c.target = .fin t' ∧ 0 ≤ t' ∧ t' ≤ b := by
  by_cases driven : c.running && !c.fault
  · exact ⟨t,by simp only [target,driven,if_true,setpoint],low,high⟩
  · exact ⟨0,if_neg driven,le_rfl,low.trans high⟩

/-- A ramp from `v` towards `t` by at most `d`. -/
def ramped (v t d : ℚ) : ℚ := if |t - v| ≤ d then t else v + (if t < v then -d else d)

/-- A ramp stays between bounds on its two ends. -/
theorem ramped_between {v t d b : ℚ} (step : 0 < d) (low : 0 ≤ v) (high : v ≤ b) (lowTarget : 0 ≤ t)
    (highTarget : t ≤ b) : 0 ≤ ramped v t d ∧ ramped v t d ≤ b := by
  unfold ramped
  split_ifs with near down
  · exact ⟨lowTarget,highTarget⟩
  · rw [abs_of_neg (sub_neg.mpr down)] at near
    constructor <;> linarith
  · rw [abs_of_nonneg (sub_nonneg.mpr (not_lt.mp down))] at near
    constructor <;> linarith

/-- From below a limit a ramp passes it exactly when its target and a full step do. -/
theorem ramped_le_iff {v t d m : ℚ} (step : 0 < d) (below : v ≤ m) : ramped v t d ≤ m ↔ ¬ (m < t ∧ m < v + d) := by
  unfold ramped
  rw [not_and_or,not_lt,not_lt]
  split_ifs with near down
  · constructor
    · exact .inl
    · rintro (low | short)
      · exact low
      · have reach := (abs_le.mp near).2
        linarith
  · constructor
    · exact fun _ => .inl (down.le.trans below)
    · intro _
      linarith
  · rw [abs_of_nonneg (sub_nonneg.mpr (not_lt.mp down))] at near
    constructor
    · exact .inr
    · rintro (low | short)
      · linarith
      · exact short

/-- With a positive ramp time a step ramps the speed towards the target and moves by it. -/
theorem step_motion {c : Conveyor} {dt ramp v t : ℚ} (forward : 0 < dt) (maxPositive : 0 < c.maxSpeed)
    (ramps : c.rampTime = .fin ramp) (rampPositive : 0 < ramp) (speed : c.speed = .fin v) (target : c.target = .fin t) :
    let v' := ramped v t (c.maxSpeed / ramp * dt)
    c.step dt = .ok { c with speed := .fin v', position := c.position.add (.fin (v' * dt)) } := by
  intro v'
  have slope := PyFloat.div_fin_pos c.maxSpeed rampPositive
  have delta : 0 < c.maxSpeed / ramp * dt := by positivity
  by_cases near : |t - v| ≤ c.maxSpeed / ramp * dt
  · simp [step,v',ramped,ramps,slope,target,speed,PyFloat.mul_fin_pos _ forward,near,bind,Except.bind,pure,Except.pure]
  · simp [step,v',ramped,ramps,slope,target,speed,PyFloat.mul_fin_pos _ forward,near,PyFloat.copysign_fin delta,bind,
      Except.bind,pure,Except.pure]

theorem step_speed {c : Conveyor} {dt ramp v t : ℚ} (forward : 0 < dt) (maxPositive : 0 < c.maxSpeed)
    (ramps : c.rampTime = .fin ramp) (rampPositive : 0 < ramp) (speed : c.speed = .fin v) (target : c.target = .fin t) :
    ∃ position, c.step dt =
      .ok { c with speed := .fin (ramped v t (c.maxSpeed / ramp * dt)), position := position } :=
  ⟨_,step_motion forward maxPositive ramps rampPositive speed target⟩

/-- With a positive ramp time a step keeps the speed between the old speed and the target. -/
theorem step_ramps {c : Conveyor} {dt ramp v t b : ℚ} (forward : 0 < dt) (maxPositive : 0 < c.maxSpeed)
    (ramps : c.rampTime = .fin ramp) (rampPositive : 0 < ramp) (speed : c.speed = .fin v) (low : 0 ≤ v) (high : v ≤ b)
    (setpoint : c.speedSetpoint = .fin t) (lowSetpoint : 0 ≤ t) (highSetpoint : t ≤ b) :
    ∃ v' position, c.step dt = .ok { c with speed := .fin v', position := position } ∧ 0 ≤ v' ∧ v' ≤ b := by
  obtain ⟨t',target,lowTarget,highTarget⟩ := target_fin setpoint lowSetpoint highSetpoint
  obtain ⟨position,stepped⟩ := step_speed forward maxPositive ramps rampPositive speed target
  exact ⟨_,position,stepped,ramped_between (by positivity) low high lowTarget highTarget⟩

end Conveyor

inductive CncState
  | idle
  | homing
  | loading
  | running
  | unloading
  | fault
deriving DecidableEq, Repr

/-- `CncState(name)`. -/
def CncState.ofName? : String → Option CncState
  | "Idle" => some .idle
  | "Homing" => some .homing
  | "Loading" => some .loading
  | "Running" => some .running
  | "Unloading" => some .unloading
  | "Fault" => some .fault
  | _ => none

/-- `state.value` -/
def CncState.value : CncState → String
  | .idle => "Idle"
  | .homing => "Homing"
  | .loading => "Loading"
  | .running => "Running"
  | .unloading => "Unloading"
  | .fault => "Fault"

theorem CncState.ofName?_eq_some {name : String} {state : CncState} (known : CncState.ofName? name = some state) :
    name = state.value := by
  unfold CncState.ofName? at known
  split at known <;> cases known <;> rfl

def cycleOrder : List CncState := [.homing,.loading,.running,.unloading]

structure Cnc where
  durations : CncState → Option ℚ
  state : CncState := .idle
  elapsed : ℚ := 0

namespace Cnc

def start (c : Cnc) : Cnc := if c.state = .idle then { c with state := .homing, elapsed := 0 } else c

def fault (c : Cnc) : Cnc := { c with state := .fault, elapsed := 0 }

def reset (c : Cnc) : Cnc := if c.state = .fault then { c with state := .idle, elapsed := 0 } else c

/-- `_advance`: the next state of the cycle, and idle after the last one. -/
def advance (c : Cnc) : Cnc :=
  let idx := cycleOrder.idxOf c.state
  { c with
    state := if idx = cycleOrder.length - 1 then .idle else cycleOrder.getD (idx + 1) .idle
    elapsed := 0 }

def step (c : Cnc) (dt : ℚ) : Except PyError Cnc :=
  if c.state ∉ cycleOrder then .ok c
  else
    let c := { c with elapsed := c.elapsed + dt }
    match c.durations c.state with
    | none => .error .keyError
    | some duration => .ok (if c.elapsed ≥ duration then c.advance else c)

theorem step_resting {c : Cnc} (resting : c.state ∉ cycleOrder) (dt : ℚ) : c.step dt = .ok c := by
  simp [step,resting]

theorem advance_durations (c : Cnc) : c.advance.durations = c.durations := rfl

/-- With a duration for every state of the cycle a step completes. -/
theorem step_ok {c : Cnc} (durations : ∀ state ∈ cycleOrder, (c.durations state).isSome) (dt : ℚ) :
    ∃ c', c.step dt = .ok c' ∧ c'.durations = c.durations := by
  by_cases cycling : c.state ∈ cycleOrder
  · obtain ⟨duration,found⟩ := Option.isSome_iff_exists.mp (durations _ cycling)
    simp only [step,cycling,not_true,if_false,found]
    split_ifs
    · exact ⟨_,rfl,advance_durations _⟩
    · exact ⟨_,rfl,rfl⟩
  · exact ⟨c,step_resting cycling dt,rfl⟩

theorem start_durations (c : Cnc) : c.start.durations = c.durations := by
  unfold start
  split_ifs <;> rfl

theorem reset_durations (c : Cnc) : c.reset.durations = c.durations := by
  unfold reset
  split_ifs <;> rfl

end Cnc
end MockPlant.Machine
