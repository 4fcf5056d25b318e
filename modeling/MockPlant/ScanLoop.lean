import MockPlant.Loops
import MockPlant.Runs
import MockPlant.Shipped

/-!
The PLC's scan loop. `run` scans once for every deadline, and the deadlines advance by
the scan period however late a scan has come; a scan that takes longer than the period
trips the watchdog. The clock is arbitrary, and its readings are those of
`time.monotonic` in the order in which one call makes them.
-/
namespace MockPlant.ScanLoop
open MockPlant.Python MockPlant.Contract MockPlant.Plc MockPlant.Loops

structure ScanStats where
  ticks : ℕ := 0
  overruns : ℕ := 0
deriving DecidableEq

/-- The attributes of a `Plc` that `run` changes, as construction sets them. -/
structure Runner where
  state : PlcState
  stats : ScanStats := {}
  watchdogTripped : Bool := false

/-- What a call of `run` meets: the readings of its clock, and what other tasks do to
    the state in the sleep after a number of scans. -/
structure Surroundings where
  monotonic : ℕ → ℚ
  others : ℕ → PlcState → PlcState
  ordered : Monotone monotonic

/-- The readings around a scan. -/
structure ScanTime where
  start : ℚ
  finish : ℚ

/-- A call of `asyncio.sleep`: the scans made before it, the reading that it was worked
    out from, its argument, and the number of the first reading after it. -/
structure Sleep where
  scans : ℕ
  called : ℚ
  seconds : ℚ
  next : ℕ

/-- `run` at the head of its loop, with the number of readings, the scans and the
    sleeps that it has made. -/
structure Running where
  runner : Runner
  nextDeadline : ℚ
  readings : ℕ
  scans : List ScanTime := []
  sleeps : List Sleep := []

def dt (plc : Plc) : ℚ := plc.contract.metadata.scanPeriodMs / 1000

/-- A scan has been made and counted. -/
def Running.scanned (l : Running) (state : PlcState) (time : ScanTime) : Running :=
  { l with
    runner := { l.runner with state, stats := { l.runner.stats with ticks := l.runner.stats.ticks + 1 } }
    readings := l.readings + 2
    scans := l.scans ++ [time] }

/-- The watchdog has caught an overrun. -/
def Running.trip (l : Running) : Running :=
  { l with
    runner := { l.runner with
      stats := { l.runner.stats with overruns := l.runner.stats.overruns + 1 }
      watchdogTripped := true } }

def Running.sleep (l : Running) (env : Surroundings) (called seconds : ℚ) : Running :=
  { l with
    runner := { l.runner with state := env.others l.scans.length l.runner.state }
    sleeps := l.sleeps ++ [⟨l.scans.length,called,seconds,l.readings⟩] }

/-- The end of a turn: a sleep until the next deadline, unless it has passed. -/
def Running.rest (l : Running) (plc : Plc) (env : Surroundings) : Running :=
  let now := env.monotonic l.readings
  let l := { l with readings := l.readings + 1 }
  let sleepFor := l.nextDeadline - now
  let l := if 0 < sleepFor then l.sleep env now sleepFor else l
  { l with nextDeadline := l.nextDeadline + dt plc }

/-- One turn of the loop in `run`. -/
def turn (plc : Plc) (ticks : Option ℤ) (env : Surroundings) (l : Running) : Except PyError (ForInStep Running) := do
  if ticks.all (fun n => (l.runner.stats.ticks : ℤ) < n) then
    if l.runner.watchdogTripped then
      return .done l
    let start := env.monotonic l.readings
    let state ← scan plc l.runner.state (dt plc)
    let finish := env.monotonic (l.readings + 1)
    let l := l.scanned state ⟨start,finish⟩
    if dt plc < finish - start then
      return .done l.trip
    return .yield (l.rest plc env)
  else
    return .done l

/-- `run`, cut after a number of turns if it goes on that long. -/
def run (plc : Plc) (ticks : Option ℤ) (env : Surroundings) (turns : ℕ) (r : Runner) :
    Except PyError (ForInStep Running) :=
  loop (turn plc ticks env) turns { runner := r, nextDeadline := env.monotonic 0 + dt plc, readings := 1 }

/-! ### One turn -/

def Overran (plc : Plc) (time : ScanTime) : Prop := dt plc < time.finish - time.start

instance (plc : Plc) (time : ScanTime) : Decidable (Overran plc time) :=
  inferInstanceAs (Decidable (dt plc < time.finish - time.start))

/-- The loop goes on from here with a scan. -/
def Continues (ticks : Option ℤ) (r : Runner) : Prop :=
  (∀ n, ticks = some n → r.stats.ticks < n) ∧ r.watchdogTripped = false

/-- The readings that the next scan is made between. -/
def Running.time (l : Running) (env : Surroundings) : ScanTime :=
  ⟨env.monotonic l.readings,env.monotonic (l.readings + 1)⟩

/-- What a turn of the loop can do. -/
theorem turn_cases {plc : Plc} {ticks : Option ℤ} {env : Surroundings} {l : Running} {outcome : ForInStep Running}
    (turned : turn plc ticks env l = .ok outcome) :
    (¬ Continues ticks l.runner ∧ outcome = .done l) ∨
    ∃ state, Continues ticks l.runner ∧ scan plc l.runner.state (dt plc) = .ok state ∧
      (Overran plc (l.time env) ∧ outcome = .done (l.scanned state (l.time env)).trip ∨
        ¬ Overran plc (l.time env) ∧ outcome = .yield ((l.scanned state (l.time env)).rest plc env)) := by
  have condition : ticks.all (fun n => decide ((l.runner.stats.ticks : ℤ) < n)) = true ↔
      ∀ n, ticks = some n → l.runner.stats.ticks < n := by
    cases ticks <;> simp
  unfold turn at turned
  split at turned
  · next below =>
    split at turned
    · next tripped =>
      cases turned
      exact .inl ⟨fun goes => by simp [goes.2] at tripped,rfl⟩
    · next untripped =>
      obtain ⟨state,scanned,later⟩ := bind_eq_ok.mp turned
      refine .inr ⟨state,⟨condition.mp below,by simpa using untripped⟩,scanned,?_⟩
      dsimp only at later
      split at later
      · next overran => cases later; exact .inl ⟨overran,rfl⟩
      · next within => cases later; exact .inr ⟨within,rfl⟩
  · next reached =>
    cases turned
    exact .inl ⟨fun goes => reached (condition.mpr goes.1),rfl⟩

/-! ### The schedule -/

section
variable {plc : Plc} {env : Surroundings} {l : Running}

@[simp] theorem rest_scans : (l.rest plc env).scans = l.scans := by
  dsimp only [Running.rest]
  split <;> rfl

@[simp] theorem rest_readings : (l.rest plc env).readings = l.readings + 1 := by
  dsimp only [Running.rest]
  split <;> rfl

@[simp] theorem rest_nextDeadline : (l.rest plc env).nextDeadline = l.nextDeadline + dt plc := by
  dsimp only [Running.rest]
  split <;> rfl

/-- A turn sleeps exactly when the deadline is ahead, and until then. -/
theorem rest_sleeps (plc : Plc) (env : Surroundings) (l : Running) :
    (l.nextDeadline ≤ env.monotonic l.readings ∧ (l.rest plc env).sleeps = l.sleeps) ∨
    (env.monotonic l.readings < l.nextDeadline ∧ (l.rest plc env).sleeps = l.sleeps ++
      [⟨l.scans.length,env.monotonic l.readings,l.nextDeadline - env.monotonic l.readings,l.readings + 1⟩]) := by
  dsimp only [Running.rest]
  split
  · next early => exact .inr ⟨sub_pos.mp early,rfl⟩
  · next late => exact .inl ⟨sub_nonpos.mp (not_lt.mp late),rfl⟩

/-- No sleep has been cut short: `asyncio.sleep` resumes when its time is up, or later. -/
def Rested (env : Surroundings) (l : Running) : Prop :=
  ∀ sleep ∈ l.sleeps, sleep.next < l.readings → sleep.called + sleep.seconds ≤ env.monotonic sleep.next

/-- When a call of `run` is to make a scan. -/
def scheduled (plc : Plc) (env : Surroundings) (i : ℕ) : ℚ := env.monotonic 0 + i * dt plc

/-- Before a scan, its time had come or there was a sleep until then. -/
def Waited (plc : Plc) (env : Surroundings) (l : Running) (i : ℕ) : Prop :=
  scheduled plc env i ≤ env.monotonic (3 * i) ∨
    ∃ sleep ∈ l.sleeps, sleep.next = 3 * i + 1 ∧ sleep.called + sleep.seconds = scheduled plc env i

theorem Waited.mono {l' : Running} {i : ℕ} (waited : Waited plc env l i) (kept : ∀ sleep ∈ l.sleeps, sleep ∈ l'.sleeps) :
    Waited plc env l' i := by
  rcases waited with due | ⟨sleep,member,next,ends⟩
  · exact .inl due
  · exact .inr ⟨sleep,kept sleep member,next,ends⟩

/-- What the loop's scans and sleeps have to do with the schedule. -/
structure Paced (plc : Plc) (env : Surroundings) (l : Running) : Prop where
  readings : 3 * l.scans.length ≤ l.readings
  starts : ∀ i time, l.scans[i]? = some time → time.start = env.monotonic (3 * i + 1)
  waited : ∀ i < l.scans.length, Waited plc env l i
  sleeps : ∀ sleep ∈ l.sleeps, 0 < sleep.seconds ∧ sleep.called + sleep.seconds = scheduled plc env sleep.scans

/-- The head of the loop: its deadline is the time of the scan after the next one. -/
structure Punctual (plc : Plc) (env : Surroundings) (l : Running) : Prop where
  paced : Paced plc env l
  readings : l.readings = 3 * l.scans.length + 1
  deadline : l.nextDeadline = scheduled plc env (l.scans.length + 1)
  waited : Waited plc env l l.scans.length

theorem scheduled_succ (i : ℕ) : scheduled plc env (i + 1) = scheduled plc env i + dt plc := by
  simp only [scheduled,Nat.cast_add,Nat.cast_one]
  ring

theorem punctual_start (r : Runner) :
    Punctual plc env { runner := r, nextDeadline := env.monotonic 0 + dt plc, readings := 1 } where
  paced := ⟨by simp,by simp,by simp,by simp⟩
  readings := rfl
  deadline := by simp [scheduled]
  waited := .inl (by simp [scheduled])

/-- A scan starts at a reading of its own, after any wait for its time. -/
theorem paced_scanned (punctual : Punctual plc env l) (state : PlcState) :
    Paced plc env (l.scanned state (l.time env)) := by
  obtain ⟨paced,readings,_,waited⟩ := punctual
  refine ⟨?_,fun i time found => ?_,fun i made => ?_,paced.sleeps⟩
  · simp only [Running.scanned,List.length_append,List.length_singleton]
    omega
  · rcases Runs.getElem?_concat.mp found with earlier | ⟨rfl,rfl⟩
    · exact paced.starts i time earlier
    · rw [← readings]
      rfl
  · simp only [Running.scanned,List.length_append,List.length_singleton] at made
    rcases Nat.lt_succ_iff_lt_or_eq.mp made with earlier | rfl
    · exact paced.waited i earlier
    · exact waited

/-- The end of a turn waits for the next scan's time. -/
theorem punctual_rest {count : ℕ} (paced : Paced plc env l) (scans : l.scans.length = count)
    (readings : l.readings = 3 * count) (deadline : l.nextDeadline = scheduled plc env count) :
    Punctual plc env (l.rest plc env) := by
  have sleeps : Waited plc env (l.rest plc env) count ∧ (∀ sleep ∈ l.sleeps, sleep ∈ (l.rest plc env).sleeps) ∧
      ∀ sleep ∈ (l.rest plc env).sleeps,
        0 < sleep.seconds ∧ sleep.called + sleep.seconds = scheduled plc env sleep.scans := by
    rcases rest_sleeps plc env l with ⟨late,same⟩ | ⟨early,more⟩
    · rw [deadline,readings] at late
      rw [same]
      exact ⟨.inl late,fun _ member => member,paced.sleeps⟩
    · have added : ∃ sleep ∈ (l.rest plc env).sleeps, sleep.next = 3 * count + 1 ∧
          sleep.called + sleep.seconds = scheduled plc env count := by
        rw [more,← readings,← deadline]
        exact ⟨_,List.mem_append_right _ (List.mem_singleton_self _),rfl,add_sub_cancel _ _⟩
      refine ⟨.inr added,fun sleep member => more ▸ List.mem_append_left _ member,fun sleep member => ?_⟩
      rcases List.mem_append.mp (more ▸ member) with earlier | last
      · exact paced.sleeps sleep earlier
      · obtain rfl := List.mem_singleton.mp last
        rw [scans,← deadline]
        exact ⟨sub_pos.mpr early,add_sub_cancel _ _⟩
  obtain ⟨waited,kept,sleeps⟩ := sleeps
  have due : (l.rest plc env).scans.length = count := by rw [rest_scans,scans]
  exact {
    paced := {
      readings := by rw [rest_readings,due,readings]; omega
      starts := by rw [rest_scans]; exact paced.starts
      waited := fun i made => (paced.waited i (by rwa [rest_scans] at made)).mono kept
      sleeps }
    readings := by rw [rest_readings,due,readings]
    deadline := by rw [rest_nextDeadline,due,scheduled_succ,deadline]
    waited := by rw [due]; exact waited }

/-- However a turn ends, its scan and its sleep keep to the schedule. -/
theorem punctual_turn {ticks : Option ℤ} {outcome : ForInStep Running} (punctual : Punctual plc env l)
    (turned : turn plc ticks env l = .ok outcome) : Outcome (Paced plc env) (Punctual plc env) outcome := by
  rcases turn_cases turned with ⟨_,rfl⟩ | ⟨state,_,_,⟨_,rfl⟩ | ⟨_,rfl⟩⟩
  · exact punctual.paced
  · obtain ⟨readings,starts,waited,sleeps⟩ := paced_scanned punctual state
    exact ⟨readings,starts,waited,sleeps⟩
  · refine punctual_rest (paced_scanned punctual state) (by simp [Running.scanned]) ?_ punctual.deadline
    rw [Running.scanned,punctual.readings]
    ring

theorem run_paced {ticks : Option ℤ} {turns : ℕ} {r : Runner} {outcome : ForInStep Running}
    (ran : run plc ticks env turns r = .ok outcome) : Paced plc env outcome.value :=
  (loop_induction ran (punctual_start r) fun _ _ => punctual_turn).value (fun _ => id) fun _ => Punctual.paced

/-- A scan never starts before its time. -/
theorem Paced.on_schedule (paced : Paced plc env l) (rested : Rested env l) {i : ℕ} {time : ScanTime}
    (made : l.scans[i]? = some time) : scheduled plc env i ≤ time.start := by
  have bound := (List.getElem?_eq_some_iff.mp made).1
  rw [paced.starts i time made]
  rcases paced.waited i bound with due | ⟨sleep,member,next,ends⟩
  · exact due.trans (env.ordered (Nat.le_succ _))
  · have readings := paced.readings
    have resumed := rested sleep member (by omega)
    rwa [ends,next] at resumed

end

/-! ### The watchdog -/

section
variable {plc : Plc} {ticks : Option ℤ} {env : Surroundings} {turns : ℕ} {r : Runner} {l : Running}
  {outcome : ForInStep Running}

/-- No scan of a call has overrun. -/
structure Within (plc : Plc) (r : Runner) (l : Running) : Prop where
  ticks : l.runner.stats.ticks = r.stats.ticks + l.scans.length
  overruns : l.runner.stats.overruns = r.stats.overruns
  watchdog : l.runner.watchdogTripped = r.watchdogTripped
  within : ∀ time ∈ l.scans, ¬ Overran plc time

/-- The last scan of a call has overrun, and it alone. -/
structure Tripped (plc : Plc) (r : Runner) (l : Running) : Prop where
  ticks : l.runner.stats.ticks = r.stats.ticks + l.scans.length
  overruns : l.runner.stats.overruns = r.stats.overruns + 1
  watchdog : l.runner.watchdogTripped = true
  first : ∃ earlier last, l.scans = earlier ++ [last] ∧ (∀ time ∈ earlier, ¬ Overran plc time) ∧ Overran plc last

@[simp] theorem rest_stats : (l.rest plc env).runner.stats = l.runner.stats := by
  dsimp only [Running.rest]
  split <;> rfl

@[simp] theorem rest_watchdogTripped : (l.rest plc env).runner.watchdogTripped = l.runner.watchdogTripped := by
  dsimp only [Running.rest]
  split <;> rfl

theorem within_start {nextDeadline : ℚ} {readings : ℕ} :
    Within plc r { runner := r, nextDeadline, readings } where
  ticks := rfl
  overruns := rfl
  watchdog := rfl
  within := by simp

theorem within_turn (within : Within plc r l) (turned : turn plc ticks env l = .ok outcome) :
    Outcome (fun l => Within plc r l ∧ ¬ Continues ticks l.runner ∨ Tripped plc r l) (Within plc r) outcome := by
  have count (state : PlcState) : l.runner.stats.ticks + 1 =
      r.stats.ticks + (l.scanned state (l.time env)).scans.length := by
    simp only [Running.scanned,List.length_append,List.length_singleton,within.ticks]
    ring
  rcases turn_cases turned with ⟨stops,rfl⟩ | ⟨state,_,_,⟨overran,rfl⟩ | ⟨kept,rfl⟩⟩
  · exact .inl ⟨within,stops⟩
  · refine .inr ⟨count state,?_,rfl,l.scans,l.time env,rfl,within.within,overran⟩
    exact congrArg (· + 1) within.overruns
  · refine ⟨?_,?_,?_,?_⟩
    · rw [rest_stats,rest_scans]
      exact count state
    · rw [rest_stats]
      exact within.overruns
    · rw [rest_watchdogTripped]
      exact within.watchdog
    · rw [rest_scans]
      intro time member
      rcases List.mem_append.mp member with earlier | last
      · exact within.within time earlier
      · obtain rfl := List.mem_singleton.mp last
        exact kept

/-- A call is ended by its first overrun, or else by its limit or a watchdog that has tripped before. -/
theorem run_watchdog (ran : run plc ticks env turns r = .ok outcome) :
    Outcome (fun l => Within plc r l ∧ ¬ Continues ticks l.runner ∨ Tripped plc r l) (Within plc r) outcome :=
  loop_induction ran within_start fun _ _ => within_turn

theorem within_or_tripped (ran : run plc ticks env turns r = .ok outcome) :
    Within plc r outcome.value ∨ Tripped plc r outcome.value :=
  (run_watchdog ran).value (fun _ => Or.imp_left And.left) fun _ => .inl

theorem run_counts (ran : run plc ticks env turns r = .ok outcome) :
    outcome.value.runner.stats.ticks = r.stats.ticks + outcome.value.scans.length := by
  rcases within_or_tripped ran with within | tripped
  · exact within.ticks
  · exact tripped.ticks

/-- A call that finds the watchdog tripped does nothing. -/
theorem run_tripped (tripped : r.watchdogTripped = true) (ran : run plc ticks env turns r = .ok outcome) :
    outcome.value.runner = r ∧ outcome.value.scans = [] := by
  refine loop_invariant (P := fun l => l.runner = r ∧ l.scans = []) ran ⟨rfl,rfl⟩ ?_
  rintro l _ ⟨rfl,none⟩ turned
  rcases turn_cases turned with ⟨_,rfl⟩ | ⟨_,goes,_⟩
  · exact ⟨rfl,none⟩
  · exact absurd (goes.2.symm.trans tripped) (by decide)

/-- A turn stops where it is or counts one scan. -/
theorem turn_ticks (turned : turn plc ticks env l = .ok outcome) :
    outcome = .done l ∨ Continues ticks l.runner ∧ outcome.value.runner.stats.ticks = l.runner.stats.ticks + 1 := by
  rcases turn_cases turned with ⟨_,rfl⟩ | ⟨state,goes,_,⟨_,rfl⟩ | ⟨_,rfl⟩⟩
  · exact .inl rfl
  · exact .inr ⟨goes,rfl⟩
  · exact .inr ⟨goes,congrArg ScanStats.ticks rest_stats⟩

/-- No call counts beyond its limit. -/
theorem run_ticks_le {n : ℤ} (ran : run plc (some n) env turns r = .ok outcome) :
    outcome.value.runner.stats.ticks ≤ max n r.stats.ticks := by
  refine loop_invariant (P := fun l : Running => (l.runner.stats.ticks : ℤ) ≤ max n r.stats.ticks) ran
    (le_max_right _ _) fun l outcome bound turned => ?_
  rcases turn_ticks turned with rfl | ⟨goes,count⟩
  · exact bound
  · have below := goes.1 n rfl
    rw [count]
    omega

/-- A call is ended by its limit when no scan overruns. -/
theorem run_limit {n : ℤ} (ran : run plc (some n) env turns r = .ok outcome) (untripped : r.watchdogTripped = false)
    (within : ∀ time ∈ outcome.value.scans, ¬ Overran plc time) (enough : (n - r.stats.ticks).toNat < turns) :
    ∃ l, outcome = .done l ∧ l.runner.stats.ticks = max n r.stats.ticks := by
  have lowered : ∀ l l', turn plc (some n) env l = .ok (.yield l') →
      (n - l'.runner.stats.ticks).toNat < (n - l.runner.stats.ticks).toNat := by
    intro l l' turned
    rcases turn_ticks turned with no | ⟨goes,count⟩
    · cases no
    · have below := goes.1 n rfl
      simp only [ForInStep.value] at count
      omega
  have most := run_ticks_le ran
  obtain ⟨l,rfl⟩ := loop_ends lowered enough ran
  refine ⟨l,rfl,?_⟩
  rcases run_watchdog ran with ⟨kept,stops⟩ | ⟨_,_,_,earlier,last,split,_,overran⟩
  · have reached : ¬ ∀ m, some n = some m → (l.runner.stats.ticks : ℤ) < m := fun below =>
      stops ⟨below,kept.watchdog.trans untripped⟩
    have count := kept.ticks
    simp only [ForInStep.value] at most
    simp only [Option.some.injEq,forall_eq'] at reached
    omega
  · refine absurd overran (within last ?_)
    simp only [ForInStep.value,split,List.mem_append,List.mem_singleton,or_true]

end

/-! ### Calls from boot on -/

/-- A call of `run`, cut after a number of turns if it goes on that long, and what other
    tasks do to the state before it. -/
structure Call where
  ticks : Option ℤ
  env : Surroundings
  turns : ℕ
  before : PlcState → PlcState

/-- How far a call comes, unless it raises. -/
def performed (plc : Plc) (r : Runner) (c : Call) : Option Running :=
  (run plc c.ticks c.env c.turns { r with state := c.before r.state }).toOption.map ForInStep.value

def call (plc : Plc) (r : Runner) (c : Call) : Option Runner := (performed plc r c).map Running.runner

def observeScans (plc : Plc) (r : Runner) (c : Call) (_ : Runner) : List ScanTime :=
  ((performed plc r c).map Running.scans).getD []

section
variable {plc : Plc} {s : PlcState} {calls : List Call} {r : Runner}

/-- A call that was made, with its outcome. -/
theorem call_cases {c : Call} {r' : Runner} (called : call plc r c = some r') :
    ∃ outcome, run plc c.ticks c.env c.turns { r with state := c.before r.state } = .ok outcome ∧
      r' = outcome.value.runner ∧ observeScans plc r c r' = outcome.value.scans := by
  obtain ⟨l,done,rfl⟩ := Option.map_eq_some_iff.mp called
  obtain ⟨outcome,ran,rfl⟩ := Option.map_eq_some_iff.mp done
  exact ⟨outcome,toOption_eq_ok.mp ran,rfl,by rw [observeScans,done]; rfl⟩

/-- The counters and the watchdog after the scans made since boot. -/
structure Accounted (plc : Plc) (scans : List ScanTime) (r : Runner) : Prop where
  ticks : r.stats.ticks = scans.length
  watchdog : r.watchdogTripped = true → ∃ time ∈ scans, Overran plc time

theorem accounted_call {c : Call} {r' : Runner} {scans : List ScanTime} (accounted : Accounted plc scans r)
    (called : call plc r c = some r') : Accounted plc (scans ++ observeScans plc r c r') r' := by
  obtain ⟨outcome,ran,rfl,shown⟩ := call_cases called
  rw [shown]
  refine ⟨?_,fun tripped => ?_⟩
  · rw [List.length_append,← accounted.ticks]
    exact run_counts (r := { r with state := c.before r.state }) ran
  · rcases within_or_tripped ran with within | ⟨_,_,_,earlier,last,split,_,overran⟩
    · obtain ⟨time,member,overran⟩ := accounted.watchdog (within.watchdog.symm.trans tripped)
      exact ⟨time,List.mem_append_left _ member,overran⟩
    · exact ⟨last,by simp [split],overran⟩

theorem run_accounted (reached : Runs.run (call plc) { state := s } calls = some r) :
    Accounted plc (Runs.log (call plc) (observeScans plc) { state := s } calls) r := by
  refine Runs.run_induction (P := fun calls r => Accounted plc (Runs.log (call plc) (observeScans plc) { state := s } calls) r)
    ⟨rfl,fun no => absurd no Bool.false_ne_true⟩ ?_ calls r reached
  intro calls r c r' before accounted called
  rw [Runs.log_concat before called]
  exact accounted_call accounted called

/-- No call makes a scan once the watchdog has tripped. -/
theorem tripped_idle {later : List Call} {t : Runner} (tripped : r.watchdogTripped = true)
    (reached : Runs.run (call plc) r later = some t) :
    Runs.log (call plc) (observeScans plc) r later = [] ∧ t.stats = r.stats ∧ t.watchdogTripped = true := by
  refine Runs.run_induction (P := fun later t => Runs.log (call plc) (observeScans plc) r later = [] ∧
    t.stats = r.stats ∧ t.watchdogTripped = true) ⟨rfl,rfl,tripped⟩ ?_ later t reached
  rintro later t c t' before ⟨none,stats,tripped⟩ called
  obtain ⟨outcome,ran,rfl,shown⟩ := call_cases called
  obtain ⟨same,no⟩ := run_tripped (r := { t with state := c.before t.state }) tripped ran
  rw [Runs.log_concat before called,none,shown,no,same]
  exact ⟨rfl,stats,tripped⟩

/-- After any calls since boot, a call of `run` scans on schedule, stops at its first overrun
    or at its limit, and counts every scan. -/
theorem run_keeps_schedule (reached : Runs.run (call plc) { state := s } calls = some r) {ticks : Option ℤ}
    {env : Surroundings} {turns : ℕ} {outcome : ForInStep Running} (ran : run plc ticks env turns r = .ok outcome) :
    let history := Runs.log (call plc) (observeScans plc) { state := s } calls
    (Rested env outcome.value → ∀ (i : ℕ) time, outcome.value.scans[i]? = some time →
      env.monotonic 0 + i * dt plc ≤ time.start) ∧
    (∀ sleep ∈ outcome.value.sleeps,
      0 < sleep.seconds ∧ sleep.called + sleep.seconds = env.monotonic 0 + sleep.scans * dt plc) ∧
    outcome.value.runner.stats.ticks = (history ++ outcome.value.scans).length ∧
    (Within plc r outcome.value ∨ ∃ l, outcome = .done l ∧ Tripped plc r l) ∧
    (∀ n, ticks = some n → (∀ time ∈ history ++ outcome.value.scans, ¬ Overran plc time) →
      (n - r.stats.ticks).toNat < turns → ∃ l, outcome = .done l ∧ l.runner.stats.ticks = max n r.stats.ticks ∧
        ∀ more ≥ turns, run plc ticks env more r = .ok (.done l)) ∧
    (r.watchdogTripped = true → ∀ later t, Runs.run (call plc) r later = some t →
      Runs.log (call plc) (observeScans plc) r later = [] ∧ t.stats = r.stats ∧ t.watchdogTripped = true) := by
  intro history
  have accounted : Accounted plc history r := run_accounted reached
  refine ⟨fun rested i time made => (run_paced ran).on_schedule rested made,(run_paced ran).sleeps,?_,?_,?_,
    fun tripped later t => tripped_idle tripped⟩
  · rw [List.length_append,← accounted.ticks]
    exact run_counts ran
  · have watched := run_watchdog ran
    cases outcome with
    | yield l => exact .inl watched
    | done l => exact watched.imp And.left fun tripped => ⟨l,rfl,tripped⟩
  · rintro n rfl kept enough
    have untripped : r.watchdogTripped = false := by
      rw [← Bool.not_eq_true]
      intro tripped
      obtain ⟨time,member,overran⟩ := accounted.watchdog tripped
      exact kept time (List.mem_append_left _ member) overran
    obtain ⟨l,rfl,count⟩ := run_limit ran untripped (fun time member => kept time (List.mem_append_right _ member)) enough
    exact ⟨l,rfl,count,fun more further => loop_left ran further⟩

end

instance (env : Surroundings) (l : Running) : Decidable (Rested env l) :=
  inferInstanceAs (Decidable (∀ sleep ∈ l.sleeps,
    sleep.next < l.readings → sleep.called + sleep.seconds ≤ env.monotonic sleep.next))

/-- A clock by the milliseconds that pass between its readings. -/
def clock (gaps : List ℕ) : Surroundings where
  monotonic k := (gaps.take k).sum / 1000
  others _ s := s
  ordered := by
    intro j k earlier
    have least := (List.take_sublist_take_left (l := gaps) earlier).sum_le_sum fun _ _ => Nat.zero_le _
    exact div_le_div_of_nonneg_right (Nat.cast_le.mpr least) (by norm_num)

/-- The second scan of this call comes late, and the third follows it without a sleep. -/
theorem shipped_run_keeps_schedule :
    let env := clock [0,2,0,11,7,4,0,1,0]
    ∃ r l, Runs.run (call Shipped.plc) { state := Shipped.booted } [⟨some 1,clock [0,2,0],2,id⟩] = some r ∧
      run Shipped.plc (some 4) env 5 r = .ok (.done l) ∧ l.runner.stats.ticks = max 4 (r.stats.ticks : ℤ) ∧
      ∀ (i : ℕ) time, l.scans[i]? = some time → env.monotonic 0 + i * dt Shipped.plc ≤ time.start := by
  intro env
  have runs : (do
      let r ← Runs.run (call Shipped.plc) { state := Shipped.booted } [⟨some 1,clock [0,2,0],2,id⟩]
      let outcome ← (run Shipped.plc (some 4) env 5 r).toOption
      guard (Rested env outcome.value ∧ ∀ time ∈ outcome.value.scans, ¬ Overran Shipped.plc time)).isSome := by
    decide +kernel
  have first : ∀ time ∈ Runs.log (call Shipped.plc) (observeScans Shipped.plc) { state := Shipped.booted }
      [⟨some 1,clock [0,2,0],2,id⟩], ¬ Overran Shipped.plc time := by
    decide +kernel
  obtain ⟨_,runs⟩ := Option.isSome_iff_exists.mp runs
  obtain ⟨r,reached,runs⟩ := Option.bind_eq_some_iff.mp runs
  obtain ⟨outcome,ran,kept⟩ := Option.bind_eq_some_iff.mp runs
  obtain ⟨rested,within⟩ := (Option.guard_eq_some' _).mp kept
  obtain ⟨schedule,_,_,_,limit,_⟩ := run_keeps_schedule reached (toOption_eq_ok.mp ran)
  obtain ⟨l,rfl,count,_⟩ := limit 4 rfl (List.forall_mem_append.mpr ⟨first,within⟩) (by omega)
  exact ⟨r,l,reached,toOption_eq_ok.mp ran,count,schedule rested⟩

end MockPlant.ScanLoop
