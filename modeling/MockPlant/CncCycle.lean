import MockPlant.Shipped
import MockPlant.Runs
import MockPlant.Stages

/-!
The cycle of the CNC. Whatever is done to it, it moves along the edges of its cycle, to
and from the fault, and spends in a state less than the duration of that state. A cycle
without a fault is a timer that goes through the durations of the cycle states.
-/
namespace MockPlant.CncCycle
open MockPlant.Python MockPlant.Machine MockPlant.Runs MockPlant.Stages

inductive Operation
  | start
  | fault
  | reset
  | step (dt : ℚ)
deriving DecidableEq

def operate (c : Cnc) : Operation → Except PyError Cnc
  | .start => .ok c.start
  | .fault => .ok c.fault
  | .reset => .ok c.reset
  | .step dt => c.step dt

/-- An operation of a run, which ends at an exception. -/
def next (c : Cnc) (op : Operation) : Option Cnc := (operate c op).toOption

def Operation.dt? : Operation → Option ℚ
  | .step dt => some dt
  | _ => none

/-- The times of the steps among the operations. -/
def times (ops : List Operation) : List ℚ := ops.filterMap Operation.dt?

def Forward (op : Operation) : Prop := ∀ dt ∈ op.dt?, 0 ≤ dt

/-- Every cycle state has a positive duration. -/
def Timed (durations : CncState → Option ℚ) : Prop := ∀ state ∈ cycleOrder, ∃ d, durations state = some d ∧ 0 < d

/-- The edges of the state machine. -/
inductive Edge : CncState → Operation → CncState → Prop
  | started : Edge .idle .start .homing
  | homed (dt : ℚ) : Edge .homing (.step dt) .loading
  | loaded (dt : ℚ) : Edge .loading (.step dt) .running
  | ran (dt : ℚ) : Edge .running (.step dt) .unloading
  | unloaded (dt : ℚ) : Edge .unloading (.step dt) .idle
  | faulted (state : CncState) : Edge state .fault .fault
  | cleared : Edge .fault .reset .idle

/-- An operation moves along an edge or not at all, and a start, a fault and a reset do
    what they are for where they can. -/
structure Moves (c : Cnc) (op : Operation) (c' : Cnc) : Prop where
  edge : c'.state = c.state ∨ Edge c.state op c'.state
  start : op = .start → if c.state = .idle then c'.state = .homing else c' = c
  fault : op = .fault → c'.state = .fault
  reset : op = .reset → if c.state = .fault then c'.state = .idle else c' = c

/-- No time is spent in idle and in the fault, and less than its duration in a cycle state. -/
structure TimeInState (durations : CncState → Option ℚ) (c : Cnc) : Prop where
  resting : c.state ∉ cycleOrder → c.elapsed = 0
  cycling : c.state ∈ cycleOrder → 0 ≤ c.elapsed ∧ ∃ d, durations c.state = some d ∧ c.elapsed < d

/-! ### One operation -/

theorem mem_cycleOrder {state : CncState} :
    state ∈ cycleOrder ↔ state = .homing ∨ state = .loading ∨ state = .running ∨ state = .unloading := by
  simp [cycleOrder]

/-- The end of a cycle state is an edge to another state. -/
theorem advance_edge {c : Cnc} (cycling : c.state ∈ cycleOrder) (dt : ℚ) :
    Edge c.state (.step dt) c.advance.state ∧ c.advance.state ≠ c.state := by
  rcases mem_cycleOrder.mp cycling with here | here | here | here
  · have there : c.advance.state = .loading := by simp [Cnc.advance,here,cycleOrder]
    rw [there,here]
    exact ⟨.homed dt,by decide⟩
  · have there : c.advance.state = .running := by simp [Cnc.advance,here,cycleOrder]
    rw [there,here]
    exact ⟨.loaded dt,by decide⟩
  · have there : c.advance.state = .unloading := by simp [Cnc.advance,here,cycleOrder]
    rw [there,here]
    exact ⟨.ran dt,by decide⟩
  · have there : c.advance.state = .idle := by simp [Cnc.advance,here,cycleOrder]
    rw [there,here]
    exact ⟨.unloaded dt,by decide⟩

/-- In a cycle state a step adds its time, and reaching the duration leaves the state. -/
theorem step_cycling {c : Cnc} (cycling : c.state ∈ cycleOrder) {d : ℚ} (duration : c.durations c.state = some d) (dt : ℚ) :
    (d ≤ c.elapsed + dt ∧ c.step dt = .ok { c with elapsed := c.elapsed + dt }.advance) ∨
      (c.elapsed + dt < d ∧ c.step dt = .ok { c with elapsed := c.elapsed + dt }) := by
  rcases le_or_gt d (c.elapsed + dt) with reached | short
  · exact .inl ⟨reached,by simp [Cnc.step,cycling,duration,reached]⟩
  · exact .inr ⟨short,by simp [Cnc.step,cycling,duration,short.not_ge]⟩

/-- Start and reset do nothing in a cycle state. -/
theorem operate_cycling {c : Cnc} (cycling : c.state ∈ cycleOrder) {op : Operation} (faultless : op ≠ .fault) :
    operate c op = match op.dt? with
      | some dt => c.step dt
      | none => .ok c := by
  have notIdle : c.state ≠ .idle := fun idle => by simp [idle,cycleOrder] at cycling
  have notFault : c.state ≠ .fault := fun fault => by simp [fault,cycleOrder] at cycling
  cases op with
  | start => simp [operate,Operation.dt?,Cnc.start,notIdle]
  | fault => exact absurd rfl faultless
  | reset => simp [operate,Operation.dt?,Cnc.reset,notFault]
  | step dt => rfl

/-! ### The cycle as a timer -/

/-- The durations of the present cycle state and of those after it, with the time spent. -/
def timer (c : Cnc) : Timer ℚ where
  stages := (cycleOrder.drop (cycleOrder.idxOf c.state)).map (fun state => (c.durations state).getD 0)
  elapsed := c.elapsed

theorem timer_stages {c : Cnc} : (timer c).stages = [] ↔ c.state ∉ cycleOrder := by
  simp [timer,List.drop_eq_nil_iff,List.idxOf_lt_length_iff.not.symm]

/-- The stages of the timer begin with the present state, and its end leaves the others. -/
theorem timer_cons {c : Cnc} (cycling : c.state ∈ cycleOrder) {d : ℚ} (duration : c.durations c.state = some d) :
    ∃ rest, (timer c).stages = d :: rest ∧ timer c.advance = ⟨rest,0⟩ := by
  refine ⟨(timer c).stages.tail,?_,?_⟩
  · rcases mem_cycleOrder.mp cycling with here | here | here | here <;>
      (rw [here] at duration; simp [timer,here,duration,cycleOrder])
  · rcases mem_cycleOrder.mp cycling with here | here | here | here <;> simp [timer,Cnc.advance,here,cycleOrder]

/-- A step is a tick of the timer. -/
theorem step_tick {c : Cnc} (timed : Timed c.durations) (dt : ℚ) :
    ∃ c', c.step dt = .ok c' ∧ c'.durations = c.durations ∧ timer c' = (timer c).tick dt := by
  by_cases cycling : c.state ∈ cycleOrder
  · obtain ⟨d,duration,_⟩ := timed c.state cycling
    obtain ⟨rest,stages,ended⟩ := timer_cons cycling duration
    rcases step_cycling cycling duration dt with ⟨reached,stepped⟩ | ⟨short,stepped⟩
    · refine ⟨_,stepped,rfl,?_⟩
      have elapsed : d ≤ (timer c).elapsed + dt := reached
      simp only [Timer.tick,stages,elapsed,if_true]
      exact ended
    · refine ⟨_,stepped,rfl,?_⟩
      have elapsed : ¬ d ≤ (timer c).elapsed + dt := short.not_ge
      simp only [Timer.tick,stages,elapsed,if_false]
      rw [← stages]
      rfl
  · exact ⟨c,Cnc.step_resting cycling dt,rfl,(Timer.tick_nil (timer_stages.mpr cycling) dt).symm⟩

/-- The durations are those given, and the timer is in one of its stages or done. -/
structure Clocked (durations : CncState → Option ℚ) (c : Cnc) : Prop where
  durations : c.durations = durations
  sound : (timer c).Sound

theorem Clocked.timeInState {durations : CncState → Option ℚ} (timed : Timed durations) {c : Cnc}
    (clocked : Clocked durations c) : TimeInState durations c := by
  obtain ⟨rfl,sound⟩ := clocked
  refine ⟨fun resting => sound.finished (timer_stages.mpr resting),fun cycling => ?_⟩
  obtain ⟨d,duration,_⟩ := timed c.state cycling
  obtain ⟨rest,stages,_⟩ := timer_cons cycling duration
  exact ⟨sound.started,d,duration,sound.inside d (by rw [stages]; rfl)⟩

/-- With no time spent the timer is sound in every state. -/
theorem clocked_fresh {durations : CncState → Option ℚ} (timed : Timed durations) {c : Cnc} (same : c.durations = durations)
    (fresh : c.elapsed = 0) : Clocked durations c := by
  refine ⟨same,?_⟩
  have sound : Timer.Sound ⟨(timer c).stages,(0 : ℚ)⟩ := by
    refine Timer.sound_start fun d member => ?_
    obtain ⟨state,later,rfl⟩ := List.mem_map.mp member
    obtain ⟨d,duration,positive⟩ := timed state (List.mem_of_mem_drop later)
    simpa [same,duration] using positive
  rwa [← fresh] at sound

theorem step_moves {durations : CncState → Option ℚ} (timed : Timed durations) {c c' : Cnc}
    (clocked : Clocked durations c) {dt : ℚ} (stepped : c.step dt = .ok c') :
    c'.state = c.state ∨ Edge c.state (.step dt) c'.state := by
  by_cases cycling : c.state ∈ cycleOrder
  · obtain ⟨d,duration,_⟩ := timed c.state cycling
    rw [← clocked.durations] at duration
    rcases step_cycling cycling duration dt with ⟨_,done⟩ | ⟨_,done⟩
    · cases stepped.symm.trans done
      exact .inr (advance_edge (c := { c with elapsed := c.elapsed + dt }) cycling dt).1
    · cases stepped.symm.trans done
      exact .inl rfl
  · cases stepped.symm.trans (Cnc.step_resting cycling dt)
    exact .inl rfl

/-- Every operation completes, moves by the edges and keeps the timer sound. -/
theorem operate_ok {durations : CncState → Option ℚ} (timed : Timed durations) {c : Cnc} (clocked : Clocked durations c)
    {op : Operation} (forward : Forward op) :
    ∃ c', next c op = some c' ∧ Clocked durations c' ∧ Moves c op c' := by
  cases op with
  | start =>
    refine ⟨c.start,rfl,?_⟩
    unfold Cnc.start
    split_ifs with idle
    · exact ⟨clocked_fresh timed clocked.durations rfl,.inr (idle ▸ .started),by simp [idle],by simp,by simp⟩
    · exact ⟨clocked,.inl rfl,by simp [idle],by simp,by simp⟩
  | fault =>
    exact ⟨c.fault,rfl,clocked_fresh timed clocked.durations rfl,.inr (.faulted _),by simp,by simp [Cnc.fault],by simp⟩
  | reset =>
    refine ⟨c.reset,rfl,?_⟩
    unfold Cnc.reset
    split_ifs with fault
    · exact ⟨clocked_fresh timed clocked.durations rfl,.inr (fault ▸ .cleared),by simp,by simp,by simp [fault]⟩
    · exact ⟨clocked,.inl rfl,by simp,by simp,by simp [fault]⟩
  | step dt =>
    obtain ⟨c',stepped,same,ticked⟩ := step_tick (clocked.durations ▸ timed) dt
    refine ⟨c',by simp [next,operate,stepped,Except.toOption],⟨same.trans clocked.durations,?_⟩,
      step_moves timed clocked stepped,by simp,by simp,by simp⟩
    rw [ticked]
    exact clocked.sound.tick (forward dt rfl)

theorem run_ok {durations : CncState → Option ℚ} (timed : Timed durations) {c : Cnc} (clocked : Clocked durations c)
    {ops : List Operation} (forward : ∀ op ∈ ops, Forward op) :
    ∃ c', run next c ops = some c' ∧ Clocked durations c' := by
  induction ops generalizing c with
  | nil => exact ⟨c,rfl,clocked⟩
  | cons op rest ih =>
    obtain ⟨here,later⟩ := List.forall_mem_cons.mp forward
    obtain ⟨c₁,moved,clocked₁,_⟩ := operate_ok timed clocked here
    obtain ⟨c',reached,clocked'⟩ := ih clocked₁ later
    exact ⟨c',by rw [run,moved]; exact reached,clocked'⟩

/-! ### A stay in a cycle state -/

/-- Operations that do not cut a stay short. -/
def Undisturbed (ops : List Operation) : Prop := ∀ op ∈ ops, Forward op ∧ op ≠ .fault

/-- The state is the same at every prefix of the operations. -/
def Stays (c : Cnc) (ops : List Operation) : Prop :=
  ∀ pre, pre <+: ops → ∃ c', run next c pre = some c' ∧ c'.state = c.state

theorem times_append (first second : List Operation) : times (first ++ second) = times first ++ times second := by
  simp [times]

theorem times_nonneg {ops : List Operation} (undisturbed : Undisturbed ops) : ∀ dt ∈ times ops, 0 ≤ dt := by
  intro dt member
  obtain ⟨op,listed,timed⟩ := List.mem_filterMap.mp member
  exact (undisturbed op listed).1 dt timed

theorem Undisturbed.append {first second : List Operation} :
    Undisturbed (first ++ second) ↔ Undisturbed first ∧ Undisturbed second := List.forall_mem_append

section
variable {c : Cnc} (cycling : c.state ∈ cycleOrder) {d : ℚ} (duration : c.durations c.state = some d)
include cycling duration

/-- Below the duration a stay adds up the times of its steps. -/
theorem run_short {ops : List Operation} (undisturbed : Undisturbed ops) (short : c.elapsed + (times ops).sum < d) :
    run next c ops = some { c with elapsed := c.elapsed + (times ops).sum } := by
  induction ops using List.reverseRecOn with
  | nil => simp [run,times]
  | append_singleton ops op ih =>
    obtain ⟨earlier,last⟩ := Undisturbed.append.mp undisturbed
    obtain ⟨forward,faultless⟩ := last op (List.mem_singleton_self op)
    rw [times_append,List.sum_append] at short
    have nonneg := times_nonneg last
    have ahead : 0 ≤ (times [op]).sum := List.sum_nonneg nonneg
    have before := ih earlier (by linarith)
    rw [run_concat]
    refine ⟨_,before,?_⟩
    rw [next,operate_cycling (c := { c with elapsed := c.elapsed + (times ops).sum }) cycling faultless]
    cases timed : op.dt? with
    | none => simp [times,timed,Except.toOption]
    | some dt =>
      have total : (times [op]).sum = dt := by simp [times,timed]
      rcases step_cycling (c := { c with elapsed := c.elapsed + (times ops).sum }) cycling duration dt with
        ⟨reached,_⟩ | ⟨_,stepped⟩
      · simp only at reached
        linarith
      · simp only [stepped,Except.toOption,times_append,List.sum_append,total,add_assoc]

/-- Once the times of a stay reach the duration some step has left the state. -/
theorem run_reached {ops : List Operation} (undisturbed : Undisturbed ops) (inside : c.elapsed < d)
    (reached : d ≤ c.elapsed + (times ops).sum) : ¬ Stays c ops := by
  induction ops using List.reverseRecOn with
  | nil =>
    simp only [times,List.filterMap_nil,List.sum_nil,add_zero] at reached
    exact absurd reached inside.not_ge
  | append_singleton ops op ih =>
    intro stays
    obtain ⟨earlier,last⟩ := Undisturbed.append.mp undisturbed
    obtain ⟨_,faultless⟩ := last op (List.mem_singleton_self op)
    rcases le_or_gt d (c.elapsed + (times ops).sum) with before | short
    · exact ih earlier before (fun pre within => stays pre (within.trans (List.prefix_append _ _)))
    -- The last operation is the step that reaches the duration.
    · obtain ⟨c',moved,same⟩ := stays _ (List.prefix_refl _)
      obtain ⟨_,held,moved⟩ := run_concat.mp moved
      cases held.symm.trans (run_short cycling duration earlier short)
      rw [next,operate_cycling (c := { c with elapsed := c.elapsed + (times ops).sum }) cycling faultless] at moved
      rw [times_append,List.sum_append] at reached
      cases timed : op.dt? with
      | none =>
        simp only [times,List.filterMap_cons,timed,List.filterMap_nil,List.sum_nil,add_zero] at reached short
        exact absurd reached short.not_ge
      | some dt =>
        have total : (times [op]).sum = dt := by simp [times,timed]
        rw [total] at reached
        rcases step_cycling (c := { c with elapsed := c.elapsed + (times ops).sum }) cycling duration dt with
          ⟨_,stepped⟩ | ⟨within,_⟩
        · simp only [timed,stepped,Except.toOption,Option.some.injEq] at moved
          subst moved
          exact (advance_edge cycling dt).2 same
        · simp only at within
          linarith

/-- A stay lasts as long as the times of its steps are short of the duration. -/
theorem stays_iff (fresh : c.elapsed = 0) (positive : 0 < d) {ops : List Operation} (undisturbed : Undisturbed ops) :
    Stays c ops ↔ (times ops).sum < d := by
  constructor
  · intro stays
    by_contra reached
    exact run_reached cycling duration undisturbed (fresh ▸ positive) (by linarith) stays
  · intro short pre within
    obtain ⟨rest,rfl⟩ := within
    obtain ⟨earlier,later⟩ := Undisturbed.append.mp undisturbed
    have ahead := List.sum_nonneg (times_nonneg later)
    rw [times_append,List.sum_append] at short
    exact ⟨_,run_short cycling duration earlier (by linarith),rfl⟩

end

/-- A cycle state is entered with no time spent. -/
theorem entered_fresh {c c' : Cnc} {op : Operation} (moved : next c op = some c') (cycling : c'.state ∈ cycleOrder)
    (entered : c'.state ≠ c.state) : c'.elapsed = 0 := by
  have operated := toOption_eq_ok.mp moved
  cases op with
  | start =>
    cases operated
    unfold Cnc.start at *
    split_ifs at *
    · rfl
    · exact absurd rfl entered
  | fault => cases operated; rfl
  | reset =>
    cases operated
    unfold Cnc.reset at *
    split_ifs at *
    · rfl
    · exact absurd rfl entered
  | step dt =>
    by_cases before : c.state ∈ cycleOrder
    · simp only [operate,Cnc.step,before,not_true,if_false] at operated
      cases found : c.durations c.state with
      | none => simp [found] at operated
      | some d =>
        simp only [found,Except.ok.injEq] at operated
        split_ifs at operated
        · subst operated
          rfl
        · subst operated
          exact absurd rfl entered
    · cases operated.symm.trans (Cnc.step_resting before dt)
      exact absurd rfl entered

/-! ### A cycle -/

/-- The sum of the durations of the cycle states. -/
def cycleTime (durations : CncState → Option ℚ) : ℚ := (cycleOrder.map (fun state => (durations state).getD 0)).sum

/-- The operations bring the CNC to idle for the first time. -/
def Returns (c : Cnc) (ops : List Operation) : Prop :=
  ∀ pre, pre <+: ops → ∃ c', run next c pre = some c' ∧ (c'.state = .idle ↔ pre = ops)

theorem mem_cycleOrder_iff {state : CncState} : state ∈ cycleOrder ↔ state ≠ .idle ∧ state ≠ .fault := by
  cases state <;> simp [cycleOrder]

theorem edge_fault {state : CncState} {op : Operation} (edge : Edge state op .fault) : op = .fault := by
  cases edge
  rfl

/-- In a cycle state the steps are the ticks of the timer. -/
theorem operate_tick {c c' : Cnc} (timed : Timed c.durations) (cycling : c.state ∈ cycleOrder) {op : Operation}
    (faultless : op ≠ .fault) (moved : next c op = some c') : timer c' = (timer c).ticks (times [op]) := by
  have operated := (operate_cycling cycling faultless).symm.trans (toOption_eq_ok.mp moved)
  cases step : op.dt? with
  | none =>
    simp only [step,Except.ok.injEq] at operated
    simp [times,step,operated]
  | some dt =>
    simp only [step] at operated
    obtain ⟨_,stepped,_,ticked⟩ := step_tick timed dt
    cases operated.symm.trans stepped
    simp [times,step,Timer.ticks,ticked]

section
variable {durations : CncState → Option ℚ} (timed : Timed durations) {c : Cnc} (clocked : Clocked durations c)
include timed clocked

/-- Without a fault the CNC is never in the fault, and ticks until it is idle. -/
theorem run_ticks (cycling : c.state ∈ cycleOrder) {ops : List Operation} (undisturbed : Undisturbed ops)
    (away : ∀ pre, pre <+: ops → pre ≠ ops → ∀ c', run next c pre = some c' → c'.state ≠ .idle) :
    ∃ c', run next c ops = some c' ∧ Clocked durations c' ∧ c'.state ≠ .fault ∧
      timer c' = (timer c).ticks (times ops) := by
  induction ops using List.reverseRecOn with
  | nil => exact ⟨c,rfl,clocked,(mem_cycleOrder_iff.mp cycling).2,rfl⟩
  | append_singleton ops op ih =>
    obtain ⟨earlier,last⟩ := Undisturbed.append.mp undisturbed
    obtain ⟨forward,faultless⟩ := last op (List.mem_singleton_self op)
    have prior : ∀ pre, pre <+: ops → ∀ c', run next c pre = some c' → c'.state ≠ .idle := by
      intro pre within
      refine away pre (within.trans (List.prefix_append _ _)) ?_
      rintro rfl
      exact absurd (List.IsPrefix.length_le within) (by simp)
    obtain ⟨c₁,reached,clocked₁,notFault,ticked⟩ := ih earlier (fun pre within _ => prior pre within)
    have here : c₁.state ∈ cycleOrder :=
      mem_cycleOrder_iff.mpr ⟨prior ops (List.prefix_refl _) c₁ reached,notFault⟩
    obtain ⟨c',moved,clocked',moves⟩ := operate_ok timed clocked₁ forward
    refine ⟨c',run_concat.mpr ⟨c₁,reached,moved⟩,clocked',?_,?_⟩
    · rcases moves.edge with same | edge
      · rw [same]
        exact notFault
      · exact fun fault => faultless (edge_fault (fault ▸ edge))
    · rw [operate_tick (clocked₁.durations ▸ timed) here faultless moved,ticked,times_append,Timer.ticks_append]

/-- While the CNC is not idle again its timer has stages left. -/
theorem going_of_away (cycling : c.state ∈ cycleOrder) {ops : List Operation} (undisturbed : Undisturbed ops)
    (away : ∀ pre, pre <+: ops → ∀ c', run next c pre = some c' → c'.state ≠ .idle) :
    (timer c).Going (times ops) := by
  intro earlier within
  obtain ⟨pre,inside,rfl⟩ := List.prefix_filterMap_iff.mp within
  obtain ⟨rest,rfl⟩ := inside
  obtain ⟨c',reached,_,notFault,ticked⟩ := run_ticks timed clocked cycling (Undisturbed.append.mp undisturbed).1
    (fun pre' within' _ => away pre' (within'.trans (List.prefix_append _ _)))
  have notIdle := away pre (List.prefix_append _ _) c' reached
  intro done
  rw [← times,← ticked] at done
  exact timer_stages.mp done (mem_cycleOrder_iff.mpr ⟨notIdle,notFault⟩)

end

/-- What is left at the start of a cycle. -/
theorem timer_start {c : Cnc} (idle : c.state = .idle) (most : ℚ) :
    (timer c.start).remaining = cycleTime c.durations ∧ (timer c.start).budget most = cycleTime c.durations + 4 * most := by
  have stages : (timer c.start).stages = cycleOrder.map (fun state => (c.durations state).getD 0) := by
    simp [timer,Cnc.start,idle,cycleOrder]
  have elapsed : (timer c.start).elapsed = 0 := by simp [timer,Cnc.start,idle]
  have remaining : (timer c.start).remaining = cycleTime c.durations := by
    rw [Timer.remaining,stages,elapsed,sub_zero,cycleTime]
  refine ⟨remaining,?_⟩
  rw [Timer.budget,remaining,stages]
  norm_num [cycleOrder]

section
variable {durations : CncState → Option ℚ} (timed : Timed durations) {c : Cnc} (clocked : Clocked durations c)
  (idle : c.state = .idle) {ops : List Operation} (undisturbed : Undisturbed ops)
include timed clocked idle

/-- A start from idle begins a cycle with the timer at its first stage. -/
theorem start_clocked : Clocked durations c.start ∧ c.start.state ∈ cycleOrder := by
  refine ⟨clocked_fresh timed ((Cnc.start_durations c).trans clocked.durations) ?_,?_⟩
  · simp [Cnc.start,idle]
  · simp [Cnc.start,idle,cycleOrder]

include undisturbed

/-- A cycle takes no less than the sum of its durations, and less than a greatest step
    more for each of its four states. -/
theorem cycle_time (returns : Returns c.start ops) {most : ℚ} (bounded : ∀ dt ∈ times ops, dt ≤ most) :
    cycleTime durations ≤ (times ops).sum ∧ (times ops).sum < cycleTime durations + 4 * most := by
  obtain ⟨clocked₁,cycling⟩ := start_clocked timed clocked idle
  obtain ⟨remaining,budget⟩ := timer_start idle most
  rw [clocked.durations] at remaining budget
  rw [← budget,← remaining]
  have away : ∀ pre, pre <+: ops → pre ≠ ops → ∀ c', run next c.start pre = some c' → c'.state ≠ .idle := by
    intro pre within proper c' reached back
    obtain ⟨c'',reached',only⟩ := returns pre within
    cases reached.symm.trans reached'
    exact proper (only.mp back)
  obtain ⟨c',reached,_,_,ticked⟩ := run_ticks timed clocked₁ cycling undisturbed away
  have done : ((timer c.start).ticks (times ops)).stages = [] := by
    obtain ⟨c'',reached',back⟩ := returns ops (List.prefix_refl _)
    cases reached.symm.trans reached'
    rw [← ticked]
    exact timer_stages.mpr (by simp [back.mpr rfl,cycleOrder])
  have forward := times_nonneg undisturbed
  refine ⟨Timer.sum_le_of_done clocked₁.sound forward done,?_⟩
  -- The operation that ends the cycle is a step, and until it the timer has stages left.
  rcases List.eq_nil_or_concat' ops with rfl | ⟨pre,op,rfl⟩
  · exact absurd (timer_stages.mp done) (not_not.mpr cycling)
  · have going : (timer c.start).Going (times pre) := by
      refine going_of_away timed clocked₁ cycling (Undisturbed.append.mp undisturbed).1 fun earlier within => ?_
      refine away earlier (within.trans (List.prefix_append _ _)) ?_
      rintro rfl
      exact absurd within.length_le (by simp)
    rw [times_append] at done forward bounded ⊢
    cases step : op.dt? with
    | none =>
      have nothing : times [op] = [] := by simp [times,step]
      rw [nothing,List.append_nil] at done
      exact absurd done (going _ (List.prefix_refl _))
    | some dt =>
      have last : times [op] = [dt] := by simp [times,step]
      rw [last] at done forward bounded ⊢
      simp only [List.forall_mem_append,List.forall_mem_singleton] at forward bounded
      exact Timer.sum_lt_of_done clocked₁.sound forward.1 forward.2 bounded.1 bounded.2 going done

/-- After that much time the CNC has been idle again. -/
theorem cycle_ends {most : ℚ} (positive : 0 < most) (bounded : ∀ dt ∈ times ops, dt ≤ most)
    (long : cycleTime durations + 4 * most ≤ (times ops).sum) :
    ∃ pre c', pre <+: ops ∧ run next c.start pre = some c' ∧ c'.state = .idle := by
  by_contra never
  obtain ⟨clocked₁,cycling⟩ := start_clocked timed clocked idle
  have going : (timer c.start).Going (times ops) :=
    going_of_away timed clocked₁ cycling undisturbed fun pre within c' reached back =>
      never ⟨pre,c',within,reached,back⟩
  have short := Timer.sum_lt_of_going clocked₁.sound (times_nonneg undisturbed) bounded positive.le going
  rw [(timer_start idle most).2,clocked.durations] at short
  exact absurd long short.not_ge

end

/-! ### Every sequence of operations -/

/-- From idle every sequence of operations completes; it moves along the edges, spends in
    every state less than its duration, leaves a cycle state at the step that reaches the
    duration, and takes for a cycle less than a step more a state than the durations. -/
theorem cycle_law {durations : CncState → Option ℚ} (timed : Timed durations) {ops : List Operation}
    (forward : ∀ op ∈ ops, Forward op) :
    ∃ c, run next { durations := durations } ops = some c ∧ TimeInState durations c ∧
      (∀ op, Forward op → ∃ c', next c op = some c' ∧ Moves c op c' ∧
        (c'.state ∈ cycleOrder → c'.state ≠ c.state → ∃ d, durations c'.state = some d ∧
          ∀ stay, Undisturbed stay → (Stays c' stay ↔ (times stay).sum < d))) ∧
      (c.state = .idle → ∀ cycle most, Undisturbed cycle → 0 < most → (∀ dt ∈ times cycle, dt ≤ most) →
        (Returns c.start cycle →
          cycleTime durations ≤ (times cycle).sum ∧ (times cycle).sum < cycleTime durations + 4 * most) ∧
        (cycleTime durations + 4 * most ≤ (times cycle).sum →
          ∃ pre c', pre <+: cycle ∧ run next c.start pre = some c' ∧ c'.state = .idle)) := by
  obtain ⟨c,reached,clocked⟩ := run_ok timed (clocked_fresh timed (c := { durations := durations }) rfl rfl) forward
  refine ⟨c,reached,clocked.timeInState timed,?_,?_⟩
  · intro op ahead
    obtain ⟨c',moved,clocked',moves⟩ := operate_ok timed clocked ahead
    refine ⟨c',moved,moves,fun cycling entered => ?_⟩
    obtain ⟨d,duration,positive⟩ := timed c'.state cycling
    have duration' := duration
    rw [← clocked'.durations] at duration'
    exact ⟨d,duration,fun stay undisturbed =>
      stays_iff cycling duration' (entered_fresh moved cycling entered) positive undisturbed⟩
  · intro idle cycle most undisturbed positive bounded
    exact ⟨fun returns => cycle_time timed clocked idle undisturbed returns bounded,
      fun long => cycle_ends timed clocked idle undisturbed positive bounded long⟩

theorem cncDurations_timed : Timed Shipped.cncDurations := by
  intro state cycling
  rcases mem_cycleOrder.mp cycling with rfl | rfl | rfl | rfl <;> exact ⟨3 / 10,rfl,by norm_num⟩

theorem cycle_law_cleared : ∃ c, run next Shipped.cnc [.start,.step (1 / 10),.fault,.reset] = some c ∧
    TimeInState Shipped.cncDurations c ∧ (∃ c', next c .start = some c' ∧ Moves c .start c') ∧
    (c.state = .idle → ∀ cycle, Undisturbed cycle → (∀ dt ∈ times cycle, dt ≤ 1 / 10) → Returns c.start cycle →
      6 / 5 ≤ (times cycle).sum ∧ (times cycle).sum < 6 / 5 + 4 * (1 / 10)) := by
  obtain ⟨c,reached,inState,moves,cycles⟩ := cycle_law cncDurations_timed
    (by simp [Forward,Operation.dt?] : ∀ op ∈ [.start,.step (1 / 10),.fault,.reset],Forward op)
  obtain ⟨c',moved,edge,_⟩ := moves .start (by simp [Forward,Operation.dt?])
  refine ⟨c,reached,inState,⟨c',moved,edge⟩,fun idle cycle undisturbed bounded returns => ?_⟩
  have total : cycleTime Shipped.cncDurations = 6 / 5 := by
    norm_num [cycleTime,cycleOrder,Shipped.cncDurations]
  have bounds := (cycles idle cycle (1 / 10) undisturbed (by norm_num) bounded).1 returns
  rwa [total] at bounds

end MockPlant.CncCycle
