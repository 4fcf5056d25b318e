import MockPlant.Shipped
import MockPlant.Ramps

/-!
A ramp of the conveyor. Towards a target that is held the speed goes in equal steps, so
that after any number of steps it is known from the start, it comes to rest on the target
at the step that makes up the distance, and the position is the sum of the speeds.
-/
namespace MockPlant.ConveyorRamp
open MockPlant.Python MockPlant.Machine MockPlant.Ramps

/-- A number of steps in a row. -/
def steps (c : Conveyor) (dt : ℚ) : ℕ → Except PyError Conveyor
  | 0 => .ok c
  | n + 1 => do
    let c' ← steps c dt n
    c'.step dt

/-- The speed after `n` steps of `m` from `v` towards `t`. -/
def rampSpeed (v t m : ℚ) (n : ℕ) : ℚ := if |t - v| ≤ n * m then t else v + SignType.sign (t - v) * (n * m)

theorem ramped_approach (v t d : ℚ) : Conveyor.ramped v t d = approach d t v := rfl

theorem rampSpeed_approach {m : ℚ} (forward : 0 ≤ m) (v t : ℚ) (n : ℕ) : rampSpeed v t m n = approach (n * m) t v :=
  (approach_sign (by positivity)).symm

theorem rampSpeed_succ {m : ℚ} (forward : 0 ≤ m) (v t : ℚ) (n : ℕ) :
    Conveyor.ramped (rampSpeed v t m n) t m = rampSpeed v t m (n + 1) := by
  rw [ramped_approach,rampSpeed_approach forward,rampSpeed_approach forward,approach_approach (by positivity) forward]
  push_cast
  rw [add_one_mul]

section
variable {c : Conveyor} {dt ramp v p t : ℚ} (forward : 0 < dt) (maxPositive : 0 < c.maxSpeed)
  (ramps : c.rampTime = .fin ramp) (rampPositive : 0 < ramp) (speed : c.speed = .fin v) (position : c.position = .fin p)
  (target : c.target = .fin t)
include forward maxPositive ramps rampPositive speed position target

/-- Steps change nothing but the speed and the position. -/
theorem steps_eq (n : ℕ) :
    let m := c.maxSpeed * dt / ramp
    steps c dt n = .ok { c with
      speed := .fin (rampSpeed v t m n)
      position := .fin (p + dt * ∑ i ∈ Finset.range n,rampSpeed v t m (i + 1)) } := by
  intro m
  have step : c.maxSpeed / ramp * dt = m := by rw [div_mul_eq_mul_div]
  have positive : 0 ≤ m := by positivity
  induction n with
  | zero =>
    have start : rampSpeed v t m 0 = v := by simp [rampSpeed_approach positive,approach_zero]
    rw [start]
    simp [steps,← speed,← position]
  | succ n ih =>
    have moved := Conveyor.step_motion (c := { c with
      speed := .fin (rampSpeed v t m n)
      position := .fin (p + dt * ∑ i ∈ Finset.range n,rampSpeed v t m (i + 1)) }) forward maxPositive ramps
      rampPositive rfl target
    rw [step,rampSpeed_succ positive] at moved
    rw [steps,ih]
    refine moved.trans ?_
    rw [PyFloat.add_fin,Finset.sum_range_succ,mul_add,add_assoc,mul_comm dt (rampSpeed v t m (n + 1))]

end

/-- The speed and the position after any number of steps; the target is reached at the
    step that makes up the distance, held from there on and never overshot. -/
theorem ramp_closed_form {c : Conveyor} {dt ramp v p t : ℚ} (forward : 0 < dt) (maxPositive : 0 < c.maxSpeed)
    (ramps : c.rampTime = .fin ramp) (rampPositive : 0 < ramp) (speed : c.speed = .fin v)
    (position : c.position = .fin p) (target : c.target = .fin t) (n : ℕ) :
    let m := c.maxSpeed * dt / ramp
    (∃ c', steps c dt n = .ok c' ∧ c'.speed = .fin (rampSpeed v t m n) ∧
      c'.position = .fin (p + dt * ∑ i ∈ Finset.range n,rampSpeed v t m (i + 1)) ∧ c'.target = .fin t) ∧
    (rampSpeed v t m n = t ↔ ⌈|t - v| / m⌉₊ ≤ n) ∧ min v t ≤ rampSpeed v t m n ∧ rampSpeed v t m n ≤ max v t := by
  intro m
  have positive : 0 < m := by positivity
  refine ⟨⟨_,steps_eq forward maxPositive ramps rampPositive speed position target n,rfl,rfl,target⟩,?_⟩
  rw [rampSpeed_approach positive.le]
  exact ⟨approach_reached_iff positive n,approach_between (by positivity)⟩

/-- The shipped conveyor stopping from its maximum at a ramp of 1/2, in steps of 3/100. -/
theorem ramp_closed_form_stopping :
    let c : Conveyor := { Shipped.conveyor with speed := .fin 2, position := .fin 1 }
    (∃ c', steps c (3 / 100) 7 = .ok c' ∧ c'.speed = .fin (29 / 25)) ∧ (rampSpeed 2 0 (3 / 25) 7 = 0 ↔ 17 ≤ 7) := by
  intro c
  have slope : c.maxSpeed * (3 / 100) / (1 / 2) = 3 / 25 := by norm_num [c,Shipped.conveyor]
  obtain ⟨⟨c',moved,speed,_⟩,reached,_⟩ := ramp_closed_form (by norm_num : (0 : ℚ) < 3 / 100)
    (by norm_num [c,Shipped.conveyor]) (rfl : c.rampTime = .fin (1 / 2)) (by norm_num) (rfl : c.speed = .fin 2)
    (rfl : c.position = .fin 1) (rfl : c.target = .fin 0) 7
  rw [slope] at speed reached
  have distance : ⌈|(0 : ℚ) - 2| / (3 / 25)⌉₊ = 17 := by norm_num [Nat.ceil_eq_iff]
  have seventh : rampSpeed 2 0 (3 / 25) 7 = 29 / 25 := by norm_num [rampSpeed]
  rw [distance] at reached
  rw [seventh] at speed
  exact ⟨⟨c',moved,speed⟩,reached⟩

end MockPlant.ConveyorRamp
