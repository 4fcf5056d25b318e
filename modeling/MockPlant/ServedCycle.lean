import MockPlant.CncCycle
import MockPlant.Projections
import MockPlant.RegisterMap

/-!
The CNC among the masters. Only scans reach the machine: a scan starts or resets it when its
command says so and the machine permits it, and then steps it. So a run of the PLC is one
of the machine without faults, and a cycle that has begun goes on as it would alone, whatever
the masters write.
-/
namespace MockPlant.ServedCycle
open MockPlant.Python MockPlant.Contract MockPlant.Machine MockPlant.ModbusServer MockPlant.Plc MockPlant.Runs
open MockPlant.Stages MockPlant.Projections MockPlant.ScanCommands MockPlant.RegisterMap MockPlant.CncCycle

/-! ### What a scan does to the CNC -/

/-- What a command has a scan do to the CNC before its step. -/
def asking (c : Cnc) (code : ℕ) : List Operation :=
  if code = CmdCode.cncStart.toNat ∧ c.state = .idle then [.start]
  else if code = CmdCode.cncReset.toNat ∧ c.state = .fault then [.reset]
  else []

/-- The same for the command that a scan finds, if there is one. -/
def asks (plc : Plc) (s : PlcState) : List Operation := (executes plc s).elim [] (fun e => asking s.cnc e.code)

/-- The operations of the CNC in a step at the PLC. -/
def operations (plc : Plc) (s : PlcState) : Traffic → PlcState → List Operation
  | .scan dt, _ => asks plc s ++ [.step dt]
  | .read _ _ _, _ | .write _ _ _, _ => []

def scanTime? : Traffic → Option ℚ
  | .scan dt => some dt
  | .read _ _ _ | .write _ _ _ => none

/-- The times of the scans in the traffic. -/
def scanTimes (actions : List Traffic) : List ℚ := actions.filterMap scanTime?

theorem runCommand_cnc (s : PlcState) (holding : Registers) (code : ℕ) {signals : OutputImage}
    (start : signals.cncStart = false) (reset : signals.cncReset = false) :
    run next s.cnc (asking s.cnc code) = some (commanded s (runCommand (snapshot s holding) code signals).2).2 := by
  unfold asking runCommand
  split_ifs <;> simp_all [run,next,operate,Except.toOption,commanded,snapshot,CmdCode.toNat]

theorem execute_cnc {plc : Plc} {s : PlcState} {holding : Registers} {out : OutputImage}
    (hHolding : s.memory .holding = some holding) (executed : execute plc (snapshot s holding) = .ok out) :
    run next s.cnc (asks plc s) = some (commanded s out).2 := by
  obtain ⟨signals,command,hSignals,hCommand,cases⟩ := execute_cases executed
  obtain ⟨_,start,reset⟩ := computeSignals_asks hSignals
  have found : executes plc s = execution (snapshot s holding) command := by
    simp [executes,readInputs_ok.mpr ⟨holding,hHolding,rfl,rfl⟩,hCommand]
  rcases cases with ⟨idle,rfl⟩ | ⟨pending,_,_,_,_,rfl⟩
  · simp [asks,found,execution,idle,run,commanded,start,reset]
  · have asked : asks plc s = asking s.cnc command.code := by simp [asks,found,execution,pending]
    rw [asked]
    exact runCommand_cnc s holding command.code start reset

theorem scan_cnc {plc : Plc} {s s' : PlcState} {dt : ℚ} (scanned : scan plc s dt = .ok s') :
    run next s.cnc (asks plc s ++ [.step dt]) = some s'.cnc := by
  obtain ⟨holding,out,memory,conveyor,cnc,hHolding,executed,_,_,stepped,rfl⟩ := scan_ok.mp scanned
  exact run_concat.mpr ⟨_,execute_cnc hHolding executed,by simp [next,operate,stepped,Except.toOption]⟩

/-- A run of the PLC is one of the CNC. -/
theorem cnc_projects (plc : Plc) : Projects (serve plc) next PlcState.cnc (operations plc) := by
  intro s a t moved
  cases a with
  | scan dt => exact scan_cnc (toOption_eq_ok.mp moved)
  | read =>
    cases moved
    rfl
  | write =>
    cases moved
    rw [request_eq]
    rfl

/-! ### No faults -/

/-- The operations of a step are never a fault. -/
theorem operations_faultless {plc : Plc} {s t : PlcState} {a : Traffic} {op : Operation}
    (inside : op ∈ operations plc s a t) : op ≠ .fault := by
  rintro rfl
  cases a with
  | scan dt =>
    simp only [operations,asks,List.mem_append,List.mem_singleton,reduceCtorEq,or_false] at inside
    cases found : executes plc s with
    | none => simp [found] at inside
    | some e =>
      simp only [found,Option.elim_some,asking] at inside
      split_ifs at inside <;> simp at inside
  | read => cases inside
  | write => cases inside

theorem operations_forward {plc : Plc} {s t : PlcState} {a : Traffic} (forward : ∀ dt ∈ scanTime? a, 0 ≤ dt)
    {op : Operation} (inside : op ∈ operations plc s a t) : Forward op := by
  cases a with
  | scan dt =>
    simp only [operations,asks,List.mem_append,List.mem_singleton] at inside
    rcases inside with asked | rfl
    · cases found : executes plc s with
      | none => simp [found] at asked
      | some e =>
        simp only [found,Option.elim_some,asking] at asked
        split_ifs at asked <;> simp_all [Forward,Operation.dt?]
    · exact forward
  | read => cases inside
  | write => cases inside

section
variable {durations : CncState → Option ℚ} (timed : Timed durations)
include timed

/-- Without a fault the CNC does not come into the fault. -/
theorem run_healthy {c c' : Cnc} {ops : List Operation} (clocked : Clocked durations c) (healthy : c.state ≠ .fault)
    (undisturbed : Undisturbed ops) (reached : run next c ops = some c') : Clocked durations c' ∧ c'.state ≠ .fault := by
  induction ops generalizing c with
  | nil =>
    cases reached
    exact ⟨clocked,healthy⟩
  | cons op rest ih =>
    obtain ⟨⟨forward,faultless⟩,later⟩ := List.forall_mem_cons.mp undisturbed
    obtain ⟨c₁,moved,clocked₁,moves⟩ := operate_ok timed clocked forward
    rw [run,moved] at reached
    refine ih clocked₁ (fun fault => ?_) later reached
    rcases moves.edge with same | edge
    · exact healthy (same ▸ fault)
    · exact faultless (edge_fault (fault ▸ edge))

/-- No run of the PLC brings the CNC into the fault. -/
theorem served_healthy {plc : Plc} {s t : PlcState} {actions : List Traffic} (clocked : Clocked durations s.cnc)
    (healthy : s.cnc.state ≠ .fault) (forward : ∀ dt ∈ scanTimes actions, 0 ≤ dt)
    (reached : run (serve plc) s actions = some t) : Clocked durations t.cnc ∧ t.cnc.state ≠ .fault := by
  refine run_healthy timed clocked healthy ?_ ((cnc_projects plc).run_log reached)
  refine forall_mem_log fun a member u v _ op inside => ⟨operations_forward ?_ inside,operations_faultless inside⟩
  exact fun dt timed => forward dt (List.mem_filterMap.mpr ⟨a,member,timed⟩)

end

/-! ### A cycle -/

/-- In a cycle state no command has a scan do anything to the CNC. -/
theorem asks_cycling {plc : Plc} {s : PlcState} (cycling : s.cnc.state ∈ cycleOrder) : asks plc s = [] := by
  obtain ⟨notIdle,notFault⟩ := mem_cycleOrder_iff.mp cycling
  unfold asks asking
  cases executes plc s <;> simp [notIdle,notFault]

/-- While the CNC is in its cycle the scans only step it. -/
theorem log_cycling {plc : Plc} {s t : PlcState} {actions : List Traffic} (reached : run (serve plc) s actions = some t)
    (cycling : Along (serve plc) (fun u _ => u.cnc.state ∈ cycleOrder) s actions) :
    log (serve plc) (operations plc) s actions = (scanTimes actions).map .step := by
  induction actions generalizing s with
  | nil => rfl
  | cons a rest ih =>
    obtain ⟨here,later⟩ := cycling
    obtain ⟨u,moved,beyond⟩ := Option.bind_eq_some_iff.mp reached
    simp only [log,moved,ih beyond (later u moved)]
    cases a with
    | scan dt => simp [operations,asks_cycling here,scanTimes,scanTime?]
    | read => rfl
    | write => rfl

/-- Steps alone are the ticks of the timer. -/
theorem run_steps {c c' : Cnc} (timed : Timed c.durations) {dts : List ℚ} (stepped : run next c (dts.map .step) = some c') :
    timer c' = (timer c).ticks dts := by
  induction dts generalizing c with
  | nil =>
    cases stepped
    rfl
  | cons dt rest ih =>
    obtain ⟨c₁,moved,same,ticked⟩ := step_tick timed dt
    have first : next c (.step dt) = some c₁ := by simp [next,operate,moved,Except.toOption]
    rw [List.map_cons,run,first] at stepped
    rw [ih (same ▸ timed) stepped,ticked]
    rfl

/-- How a cycle goes that a scan starts, with the state after that scan, the traffic since and
    the state after it. It goes as the CNC would alone until it is idle again, so it is not
    before the durations are over, and it is once each of the four states has had a
    greatest scan more. -/
structure CycleRuns (plc : Plc) (s : PlcState) (dt : ℚ) (s' : PlcState) (later : List Traffic) (t : PlcState) : Prop where
  healthy : t.cnc.state ≠ .fault
  alone : Along (serve plc) (fun u _ => u.cnc.state ≠ .idle) s' later →
    run next s.cnc.start ((dt :: scanTimes later).map .step) = some t.cnc
  lasts : (dt :: scanTimes later).sum < cycleTime s.cnc.durations → t.cnc.state ≠ .idle
  ends : ∀ most, 0 < most → (∀ dt' ∈ dt :: scanTimes later, dt' ≤ most) →
    cycleTime s.cnc.durations + 4 * most ≤ (dt :: scanTimes later).sum →
    ∃ earlier u, earlier <+: later ∧ run (serve plc) s' earlier = some u ∧ u.cnc.state = .idle

section
variable {plc : Plc} {s s' t : PlcState} {dt : ℚ} {later : List Traffic} (timed : Timed s.cnc.durations)
  (clocked : Clocked s.cnc.durations s.cnc) (starts : asks plc s = [.start]) (served : serve plc s (.scan dt) = some s')
  (forward : ∀ dt' ∈ dt :: scanTimes later, 0 ≤ dt') (reached : run (serve plc) s' later = some t)

omit timed clocked starts served forward reached in
theorem idle_of_asks (starts : asks plc s = [.start]) : s.cnc.state = .idle := by
  unfold asks asking at starts
  cases found : executes plc s with
  | none => simp [found] at starts
  | some e =>
    simp only [found,Option.elim_some] at starts
    split_ifs at starts with asked reset
    · exact asked.2
    · cases starts

include timed clocked starts served forward

/-- The scan that starts the CNC steps it too. -/
theorem start_scan : run next s.cnc.start [.step dt] = some s'.cnc ∧ Clocked s.cnc.durations s'.cnc ∧
    s'.cnc.state ≠ .fault := by
  obtain ⟨clocked₁,cycling⟩ := start_clocked timed clocked (idle_of_asks starts)
  have operated := scan_cnc (toOption_eq_ok.mp served)
  rw [starts] at operated
  refine ⟨operated,run_healthy timed clocked₁ (mem_cycleOrder_iff.mp cycling).2 ?_ operated⟩
  simpa [Undisturbed,Forward,Operation.dt?] using forward dt List.mem_cons_self

include reached

/-- Until the CNC is idle again it does what its steps would do alone. -/
theorem cycle_alone (away : Along (serve plc) (fun u _ => u.cnc.state ≠ .idle) s' later) :
    run next s.cnc.start ((dt :: scanTimes later).map .step) = some t.cnc := by
  obtain ⟨first,clocked',healthy⟩ := start_scan timed clocked starts served forward
  have cycling : Along (serve plc) (fun u _ => u.cnc.state ∈ cycleOrder) s' later := by
    refine along_iff.mpr fun earlier a rest u split before => ?_
    refine mem_cycleOrder_iff.mpr ⟨along_iff.mp away earlier a rest u split before,?_⟩
    refine (served_healthy timed clocked' healthy (fun dt' inside => forward dt' ?_) before).2
    rw [split,scanTimes,List.filterMap_append]
    exact List.mem_cons_of_mem _ (List.mem_append_left _ inside)
  have rest := (cnc_projects plc).run_log reached
  rw [log_cycling reached cycling] at rest
  rw [List.map_cons,← List.singleton_append,run_append,first,Option.bind_some]
  exact rest

/-- Until then the timer of the cycle has ticked. -/
theorem cycle_ticked (away : Along (serve plc) (fun u _ => u.cnc.state ≠ .idle) s' later) :
    timer t.cnc = (timer s.cnc.start).ticks (dt :: scanTimes later) :=
  run_steps ((Cnc.start_durations s.cnc).symm ▸ timed) (cycle_alone timed clocked starts served forward reached away)

/-- At the first time that it is idle again the durations are over. -/
theorem first_idle (away : Along (serve plc) (fun u _ => u.cnc.state ≠ .idle) s' later) (back : t.cnc.state = .idle) :
    cycleTime s.cnc.durations ≤ (dt :: scanTimes later).sum := by
  have idle := idle_of_asks starts
  rw [← (timer_start idle 0).1]
  refine Timer.sum_le_of_done (start_clocked timed clocked idle).1.sound forward ?_
  rw [← cycle_ticked timed clocked starts served forward reached away]
  exact timer_stages.mpr (by simp [back,cycleOrder])

theorem cycle_lasts (short : (dt :: scanTimes later).sum < cycleTime s.cnc.durations) : t.cnc.state ≠ .idle := by
  intro back
  have long : cycleTime s.cnc.durations ≤ (dt :: scanTimes later).sum := by
    rcases along_or_first (fun (u : PlcState) _ => u.cnc.state ≠ .idle) s' later with
      away | ⟨earlier,a,rest,u,split,away,before,idle⟩
    · exact first_idle timed clocked starts served forward reached away back
    · -- It has been idle before, at the latest then the durations were over.
      have times : dt :: scanTimes later = (dt :: scanTimes earlier) ++ scanTimes (a :: rest) := by
        rw [split,scanTimes,List.filterMap_append]
        rfl
      rw [times] at forward ⊢
      obtain ⟨first,beyond⟩ := List.forall_mem_append.mp forward
      have reachedFirst := first_idle timed clocked starts served first before away (not_not.mp idle)
      have ahead : 0 ≤ (scanTimes (a :: rest)).sum := List.sum_nonneg beyond
      rw [List.sum_append]
      linarith
  exact absurd short long.not_gt

theorem cycle_over {most : ℚ} (positive : 0 < most) (bounded : ∀ dt' ∈ dt :: scanTimes later, dt' ≤ most)
    (long : cycleTime s.cnc.durations + 4 * most ≤ (dt :: scanTimes later).sum) :
    ∃ earlier u, earlier <+: later ∧ run (serve plc) s' earlier = some u ∧ u.cnc.state = .idle := by
  by_contra never
  push Not at never
  have idle := idle_of_asks starts
  obtain ⟨_,clocked',healthy⟩ := start_scan timed clocked starts served forward
  have away : Along (serve plc) (fun u _ => u.cnc.state ≠ .idle) s' later := by
    refine along_iff.mpr fun earlier a rest u split before => never earlier u ?_ before
    rw [split]
    exact List.prefix_append _ _
  have cycling : t.cnc.state ∈ cycleOrder := by
    refine mem_cycleOrder_iff.mpr ⟨never later t (List.prefix_refl _) reached,?_⟩
    exact (served_healthy timed clocked' healthy (List.forall_mem_cons.mp forward).2 reached).2
  have going : (timer s.cnc.start).Going (dt :: scanTimes later) := by
    refine Timer.going_of_last ?_
    rw [← cycle_ticked timed clocked starts served forward reached away]
    exact fun done => timer_stages.mp done cycling
  have short := Timer.sum_lt_of_going (start_clocked timed clocked idle).1.sound forward bounded positive.le going
  rw [(timer_start idle most).2] at short
  exact absurd long short.not_ge

end

/-- Whatever masters write to a booted PLC, its CNC is never in the fault; and once a scan has
    started a cycle, it goes through it as it would alone. -/
theorem cycle_runs {contract : Contract} {conveyor : Conveyor} {cnc : Cnc} {plc : Plc} {s₀ s : PlcState}
    (booted : boot contract conveyor cnc = .ok (plc,s₀)) (timed : Timed cnc.durations) (fresh : cnc.elapsed = 0)
    (healthy : cnc.state ≠ .fault) {before : List Traffic} (forward : ∀ dt ∈ scanTimes before, 0 ≤ dt)
    (reached : run (serve plc) s₀ before = some s) : s.cnc.state ≠ .fault ∧
      ∀ dt s' later t, asks plc s = [.start] → serve plc s (.scan dt) = some s' → (∀ dt' ∈ dt :: scanTimes later, 0 ≤ dt') →
        run (serve plc) s' later = some t → CycleRuns plc s dt s' later t := by
  obtain ⟨_,_,_,rfl⟩ := boot_ok.mp booted
  obtain ⟨clocked,still⟩ := served_healthy timed (clocked_fresh timed rfl fresh) healthy forward reached
  refine ⟨still,fun dt s' later t starts served ahead rest => ?_⟩
  have same := clocked.durations
  rw [← same] at timed clocked
  obtain ⟨_,clocked',healthy'⟩ := start_scan timed clocked starts served ahead
  exact
    { healthy := (served_healthy timed clocked' healthy' (List.forall_mem_cons.mp ahead).2 rest).2
      alone := cycle_alone timed clocked starts served ahead rest
      lasts := cycle_lasts timed clocked starts served ahead rest
      ends := fun _ positive bounded long => cycle_over timed clocked starts served ahead rest positive bounded long }

/-- A reset and another start fall into a cycle of the shipped CNC, which is not over after eleven scans. -/
theorem shipped_cycle_runs :
    let later := .write 16 100 [4,0,0,2] :: List.replicate 5 (.scan (1 / 10)) ++
      .write 16 100 [3,0,0,3] :: List.replicate 5 (.scan (1 / 10))
    ∃ s s' t, run (serve Shipped.plc) Shipped.booted [.write 16 100 [3,0,0,1]] = some s ∧
      serve Shipped.plc s (.scan (1 / 10)) = some s' ∧ run (serve Shipped.plc) s' later = some t ∧
      t.cnc.state ≠ .idle ∧ t.cnc.state ≠ .fault ∧ CycleRuns Shipped.plc s (1 / 10) s' later t := by
  intro later
  obtain ⟨s,reached,starts⟩ := Option.map_eq_some_iff.mp (by decide +kernel :
    (run (serve Shipped.plc) Shipped.booted [.write 16 100 [3,0,0,1]]).map (asks Shipped.plc) = some [.start])
  obtain ⟨t,whole⟩ := Option.isSome_iff_exists.mp (by decide +kernel :
    (run (serve Shipped.plc) Shipped.booted (.write 16 100 [3,0,0,1] :: .scan (1 / 10) :: later)).isSome)
  have remaining : run (serve Shipped.plc) s (.scan (1 / 10) :: later) = some t := by
    rw [← List.singleton_append,run_append,reached] at whole
    exact whole
  obtain ⟨s',served,rest⟩ := Option.bind_eq_some_iff.mp remaining
  have times : (1 / 10 : ℚ) :: scanTimes later = List.replicate 11 (1 / 10) := by decide +kernel
  obtain ⟨_,cycles⟩ := cycle_runs Shipped.boot_booted cncDurations_timed rfl (by decide) (by decide) reached
  have runs := cycles (1 / 10) s' later t starts served (by rw [times]; decide +kernel) rest
  refine ⟨s,s',t,reached,served,rest,runs.lasts ?_,runs.healthy,runs⟩
  have machine : s.cnc.durations = Shipped.cncDurations := by
    have clocked := (served_healthy cncDurations_timed (clocked_fresh cncDurations_timed (c := Shipped.cnc) rfl rfl) (by decide)
      (by decide) reached).1
    exact clocked.durations
  rw [times,machine]
  norm_num [cycleTime,cycleOrder,Shipped.cncDurations]

end MockPlant.ServedCycle
