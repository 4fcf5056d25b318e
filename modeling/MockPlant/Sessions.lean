import MockPlant.Controller
import MockPlant.Runs

/-!
The client's session. The controller opens it, subscribes and, when the connection is
lost, leaves a task to open it again and subscribe again, until it disconnects. The task
runs between the losses and the calls of the user, and only the loss that comes between
the answer to its last request and its own next turn finds it still at work and is left
to it in vain.
-/
namespace MockPlant.Sessions
open MockPlant.Python MockPlant.Contract MockPlant.Runs MockPlant.Controller

/-! ### The controller -/

/-- Where a turn of `_reconnect` stands. -/
inductive Phase
  | sleeping
  | connecting
  | connected
  | watching
  | watched
deriving DecidableEq

/-- A reconnect task. A cancelled one is done when the exception has gone through it. -/
inductive Task
  | live (phase : Phase)
  | cancelled
  | done
deriving DecidableEq

inductive Session
  | down
  | up (subscribed : Bool)
deriving DecidableEq

/-- The controller is leaving while a `disconnect` has not returned. The tasks that
    `_reconnecting` has held before are kept beside it. -/
structure State where
  closing : Bool := false
  leaving : Bool := false
  sink : Bool := false
  session : Session := .down
  reconnecting : Option Task := none
  older : List Task := []
  reported : Reported := watched

/-- The calls of the user, the reports of a lost connection, the turns of the reconnect task
    with what its requests come to, and the notifications. The user connects only where there
    is no session; a call that raises after it has opened one is a connect all the same. -/
inductive Action
  | connect
  | watch (subscribes : Bool)
  | disconnect
  | disconnected
  | lost
  | wakes
  | connects
  | subscribes
  | fails (caught opened : Bool)
  | resumes
  | unwinds (opened : Bool)
  | notify (update : Update)
deriving DecidableEq

/-- `_reconnecting is not None and not _reconnecting.done()` -/
def State.running (s : State) : Bool :=
  match s.reconnecting with
  | none | some .done => false
  | some _ => true

/-- The task goes on to another point. -/
def State.turn (s : State) (task : Task) : State := { s with reconnecting := some task }

/-- `cancel` of the task, if it is not done. -/
def State.cancel (s : State) : State := if s.running then s.turn .cancelled else s

def opens (opened : Bool) (session : Session) : Session := if opened then .up false else session

/-! ### Steps -/

section
variable (deadband : ℚ)

/-- Without a session no subscription is made. A loss may be reported late, when the session
    is down already. -/
def step (s : State) : Action → Option State
  | .connect => if s.session = .down then some { s with session := .up false } else none
  | .watch subscribes =>
    match s.session with
    | .down => if subscribes then none else some { s with sink := true, reported := watched }
    | .up before => some { s with sink := true, reported := watched, session := .up (before || subscribes) }
  | .disconnect => some { s.cancel with closing := true, leaving := true }
  | .disconnected =>
    if s.leaving = true ∧ s.running = false then some { s with leaving := false, session := .down } else none
  | .lost =>
    if s.closing || s.running then some { s with session := .down }
    else some { s with
      session := .down
      reconnecting := some (.live .sleeping)
      older := s.older ++ s.reconnecting.toList }
  | .wakes =>
    if s.reconnecting = some (.live .sleeping) then some { s.turn (.live .connecting) with session := .down } else none
  | .connects =>
    if s.reconnecting = some (.live .connecting) then some { s.turn (.live .connected) with session := .up false }
    else none
  | .subscribes =>
    if s.reconnecting = some (.live .watching) ∧ s.session ≠ .down
      then some { s.turn (.live .watched) with session := .up true } else none
  | .fails caught opened =>
    -- An exception that `_reconnect` does not catch ends the task.
    let next := if caught && !s.closing then s.turn (.live .sleeping) else s.turn .done
    if s.reconnecting = some (.live .connecting) then some { next with session := opens opened .down }
    else if s.reconnecting = some (.live .watching) then some next
    else none
  | .resumes =>
    if s.reconnecting = some (.live .connected) then
      if s.sink then some { s.turn (.live .watching) with reported := watched } else some (s.turn .done)
    else if s.reconnecting = some (.live .watched) then some (s.turn .done)
    else none
  | .unwinds opened =>
    if s.reconnecting = some .cancelled then some { s.turn .done with session := opens opened s.session } else none
  | .notify update =>
    if s.session = .up true then
      match report deadband s.reported update with
      | .ok (reported,_) => some { s with reported }
      | .error _ => some s
    else none

/-- What a step does to all but the updates passed on. -/
inductive Moves (s : State) : Action → State → Prop
  | connect (closed : s.session = .down) : Moves s .connect { s with session := .up false }
  | watch {before : Bool} (opened : s.session = .up before) (subscribes : Bool) :
      Moves s (.watch subscribes) { s with sink := true, reported := watched, session := .up (before || subscribes) }
  | refused (closed : s.session = .down) : Moves s (.watch false) { s with sink := true, reported := watched }
  | disconnect : Moves s .disconnect { s.cancel with closing := true, leaving := true }
  | disconnected (leaving : s.leaving = true) (idle : s.running = false) :
      Moves s .disconnected { s with leaving := false, session := .down }
  | dropped (attended : s.closing = true ∨ s.running = true) :
      Moves s .lost { s with session := .down }
  | noticed (running : s.closing = false) (idle : s.running = false) :
      Moves s .lost { s with
        session := .down
        reconnecting := some (.live .sleeping)
        older := s.older ++ s.reconnecting.toList }
  | wakes (here : s.reconnecting = some (.live .sleeping)) : Moves s .wakes { s.turn (.live .connecting) with session := .down }
  | connects (here : s.reconnecting = some (.live .connecting)) :
      Moves s .connects { s.turn (.live .connected) with session := .up false }
  | subscribes (here : s.reconnecting = some (.live .watching)) (opened : s.session ≠ .down) :
      Moves s .subscribes { s.turn (.live .watched) with session := .up true }
  | retries {phase : Phase} (asking : phase ≠ .watched) (here : s.reconnecting = some (.live phase))
      (running : s.closing = false) (opened : Bool) (session : Session) :
      Moves s (.fails true opened) { s.turn (.live .sleeping) with session }
  | ends {phase : Phase} (asking : phase ≠ .watched) (here : s.reconnecting = some (.live phase)) (caught opened : Bool)
      (uncaught : caught = true → s.closing = true) (session : Session) :
      Moves s (.fails caught opened) { s.turn .done with session }
  | resubscribes (here : s.reconnecting = some (.live .connected)) (sink : s.sink = true) :
      Moves s .resumes { s.turn (.live .watching) with reported := watched }
  | reconnected (here : s.reconnecting = some (.live .connected)) (none : s.sink = false) : Moves s .resumes (s.turn .done)
  | restored (here : s.reconnecting = some (.live .watched)) : Moves s .resumes (s.turn .done)
  | unwinds (here : s.reconnecting = some .cancelled) (opened : Bool) :
      Moves s (.unwinds opened) { s.turn .done with session := opens opened s.session }
  | notify (opened : s.session = .up true) (update : Update) (reported : Reported) :
      Moves s (.notify update) { s with reported }

theorem step_moves {s t : State} {a : Action} (moved : step deadband s a = some t) : Moves s a t := by
  cases a with
  | connect =>
    simp only [step] at moved
    split_ifs at moved with closed
    cases moved
    exact .connect closed
  | watch subscribes =>
    simp only [step] at moved
    split at moved
    case h_1 closed =>
      split_ifs at moved with granted
      cases moved
      rw [Bool.not_eq_true] at granted
      exact granted ▸ .refused closed
    case h_2 opened =>
      cases moved
      exact .watch opened subscribes
  | disconnect =>
    cases moved
    exact .disconnect
  | disconnected =>
    simp only [step] at moved
    split_ifs at moved with free
    cases moved
    exact .disconnected free.1 free.2
  | lost =>
    simp only [step] at moved
    split_ifs at moved with attended
    · cases moved
      exact .dropped (by simpa using attended)
    · cases moved
      simp only [Bool.or_eq_true,not_or,Bool.not_eq_true] at attended
      exact .noticed attended.1 attended.2
  | wakes =>
    simp only [step] at moved
    split_ifs at moved with here
    cases moved
    exact .wakes here
  | connects =>
    simp only [step] at moved
    split_ifs at moved with here
    cases moved
    exact .connects here
  | subscribes =>
    simp only [step] at moved
    split_ifs at moved with here
    cases moved
    exact .subscribes here.1 here.2
  | fails caught opened =>
    have fails {phase : Phase} (asking : phase ≠ .watched) (here : s.reconnecting = some (.live phase)) (session : Session) :
        Moves s (.fails caught opened)
          { (if caught && !s.closing then s.turn (.live .sleeping) else s.turn .done) with session } := by
      split_ifs with again
      · simp only [Bool.and_eq_true,Bool.not_eq_true'] at again
        rw [again.1]
        exact .retries asking here again.2 opened session
      · simp only [Bool.and_eq_true,Bool.not_eq_true',not_and,Bool.not_eq_false] at again
        exact .ends asking here caught opened again session
    simp only [step] at moved
    split_ifs at moved with connecting again watching again
    all_goals cases moved
    · simpa [again] using fails (by simp) connecting (opens opened .down)
    · simpa [again] using fails (by simp) connecting (opens opened .down)
    · have kept := fails (by simp) watching s.session
      rw [if_pos again] at kept
      exact kept
    · have kept := fails (by simp) watching s.session
      rw [if_neg again] at kept
      exact kept
  | resumes =>
    simp only [step] at moved
    split_ifs at moved with connected sink watched
    · cases moved
      exact .resubscribes connected sink
    · cases moved
      exact .reconnected connected (by simpa using sink)
    · cases moved
      exact .restored watched
  | unwinds opened =>
    simp only [step] at moved
    split_ifs at moved with here
    cases moved
    exact .unwinds here opened
  | notify update =>
    simp only [step] at moved
    split_ifs at moved with opened
    split at moved
    · cases moved
      exact .notify opened update _
    · cases moved
      exact .notify opened update s.reported

/-! ### Tasks -/

/-- What stands of the tasks: only the last one can be at work, it is cancelled when the
    controller closes, and it watches for a sink. -/
structure Kempt (s : State) : Prop where
  older : ∀ t ∈ s.older, t = .done
  closing : s.closing = true → ∀ phase, s.reconnecting ≠ some (.live phase)
  cancelled : s.reconnecting = some .cancelled → s.closing = true
  leaving : s.leaving = true → s.closing = true
  sink : s.reconnecting = some (.live .watching) ∨ s.reconnecting = some (.live .watched) → s.sink = true

/-- The tasks created so far. -/
def State.tasks (s : State) : List Task := s.older ++ s.reconnecting.toList

theorem running_eq_false {s : State} : s.running = false ↔ ∀ task, s.reconnecting = some task → task = .done := by
  unfold State.running
  cases s.reconnecting with
  | none => simp
  | some task => cases task <;> simp

theorem Kempt.done {s : State} (kempt : Kempt s) (idle : s.running = false) : ∀ t ∈ s.tasks, t = .done := by
  intro t member
  rcases List.mem_append.mp member with old | last
  · exact kempt.older t old
  · exact running_eq_false.mp idle t (Option.mem_toList.mp last)

/-- A cancelled task is still the last one, and none is live. -/
theorem cancel_cases (s : State) : s.cancel = s ∧ s.running = false ∨ s.cancel = s.turn .cancelled ∧ s.running = true := by
  unfold State.cancel
  cases running : s.running <;> simp

/-- Every step leaves the tasks kempt. -/
theorem Moves.kempt {s t : State} {a : Action} (moves : Moves s a t) (kempt : Kempt s) : Kempt t := by
  have live {phase : Phase} (here : s.reconnecting = some (.live phase)) : s.closing = false ∧ s.leaving = false := by
    have running : s.closing = false := by
      by_contra closing
      exact kempt.closing (by simpa using closing) phase here
    refine ⟨running,?_⟩
    by_contra leaving
    have closing := kempt.leaving (by simpa using leaving)
    rw [running] at closing
    cases closing
  -- A live task at another point, or an ended one.
  have turned {task : Task} {phase : Phase} (here : s.reconnecting = some (.live phase)) (alive : task ≠ .cancelled)
      (watches : task = .live .watching ∨ task = .live .watched → s.sink = true) (session : Session) (reported : Reported) :
      Kempt { s.turn task with session, reported } := by
    obtain ⟨running,staying⟩ := live here
    refine ⟨kempt.older,fun closing => ?_,fun gone => absurd (Option.some.inj gone) alive,fun leaving => ?_,fun at_ => watches ?_⟩
    · cases running.symm.trans closing
    · cases staying.symm.trans leaving
    · simpa [State.turn] using at_
  cases moves with
  | connect => exact ⟨kempt.older,kempt.closing,kempt.cancelled,kempt.leaving,kempt.sink⟩
  | watch => exact ⟨kempt.older,kempt.closing,kempt.cancelled,kempt.leaving,fun _ => rfl⟩
  | refused => exact ⟨kempt.older,kempt.closing,kempt.cancelled,kempt.leaving,fun _ => rfl⟩
  | disconnect =>
    rcases cancel_cases s with ⟨same,idle⟩ | ⟨same,_⟩
    · rw [same]
      refine ⟨kempt.older,fun _ phase here => ?_,fun _ => rfl,fun _ => rfl,kempt.sink⟩
      cases running_eq_false.mp idle _ here
    · rw [same]
      exact ⟨kempt.older,by simp [State.turn],fun _ => rfl,fun _ => rfl,by simp [State.turn]⟩
  | disconnected => exact ⟨kempt.older,kempt.closing,kempt.cancelled,by simp,kempt.sink⟩
  | dropped => exact ⟨kempt.older,kempt.closing,kempt.cancelled,kempt.leaving,kempt.sink⟩
  | noticed running idle =>
    refine ⟨kempt.done idle,fun closing => ?_,by simp,kempt.leaving,by simp⟩
    cases running.symm.trans closing
  | wakes here => exact turned here (by simp) (by simp) _ _
  | connects here => exact turned here (by simp) (by simp) _ _
  | subscribes here => exact turned here (by simp) (fun _ => kempt.sink (.inl here)) _ _
  | retries _ here _ _ session => exact turned here (by simp) (by simp) session s.reported
  | ends _ here _ _ _ session => exact turned here (by simp) (by simp) session s.reported
  | resubscribes here sink => exact turned here (by simp) (fun _ => sink) s.session _
  | reconnected here => exact turned here (by simp) (by simp) s.session s.reported
  | restored here => exact turned here (by simp) (by simp) s.session s.reported
  | unwinds here =>
    have closing := kempt.cancelled here
    exact ⟨kempt.older,by simp [State.turn],by simp [State.turn],fun _ => closing,by simp [State.turn]⟩
  | notify => exact ⟨kempt.older,kempt.closing,kempt.cancelled,kempt.leaving,kempt.sink⟩

theorem run_kempt {actions : List Action} {s : State} (reached : run (step deadband) {} actions = some s) : Kempt s :=
  run_induction (P := fun _ s => Kempt s) ⟨by simp,by simp,by simp,by simp,by simp⟩
    (fun _ _ _ _ _ kempt moved => (step_moves deadband moved).kempt kempt) actions s reached

/-- In every run at most one reconnect task is not done. -/
theorem one_task {actions : List Action} {s : State} (reached : run (step deadband) {} actions = some s) :
    (s.tasks.filter (fun t => t ≠ .done)).length ≤ 1 := by
  have kempt := run_kempt deadband reached
  have none : s.older.filter (fun t => t ≠ .done) = [] := by
    rw [List.filter_eq_nil_iff]
    intro t member
    simpa using kempt.older t member
  rw [State.tasks,List.filter_append,none,List.nil_append]
  cases s.reconnecting with
  | none => simp
  | some task => exact List.length_filter_le _ _

/-- A loss, a reconnect that fails once, and a disconnect while the task tries again. -/
def outage : List Action :=
  [.connect,.watch true,.lost,.wakes,.fails true false,.wakes,.disconnect,.unwinds true,.disconnected]

theorem one_task_outage :
    ∃ s, run (step (1 / 100)) {} outage = some s ∧ s.tasks = [.done] ∧ (s.tasks.filter (fun t => t ≠ .done)).length ≤ 1 := by
  have ends : (run (step (1 / 100)) {} outage).map State.tasks = some [.done] := by decide +kernel
  obtain ⟨s,reached,tasks⟩ := Option.map_eq_some_iff.mp ends
  exact ⟨s,reached,tasks,one_task (1 / 100) reached⟩

/-! ### After a disconnect -/

/-- The controller has left: no session, no task at work and none to come. -/
structure Left (tasks : List Task) (s : State) : Prop where
  closing : s.closing = true
  session : s.session = .down
  idle : s.running = false
  tasks : s.tasks = tasks

/-- Once a disconnect has returned there is no session, and no reconnect task is at work or
    created again, whatever losses are still reported, unless the user connects. -/
theorem disconnect_final {before after : List Action} {s t : State}
    (left : run (step deadband) {} (before ++ [.disconnected]) = some s) (reached : run (step deadband) s after = some t)
    (away : .connect ∉ after) : Left s.tasks t ∧ ∀ task ∈ t.tasks, task = .done := by
  obtain ⟨u,earlier,moved⟩ := run_concat.mp left
  have start : Left s.tasks s := by
    have kempt := run_kempt deadband earlier
    cases step_moves deadband moved with
    | disconnected leaving idle => exact ⟨kempt.leaving leaving,rfl,idle,rfl⟩
  have stays : Left s.tasks t := by
    refine run_induction (P := fun after t => .connect ∉ after → Left s.tasks t) (fun _ => start) ?_ after t reached away
    intro actions u a v _ ih moved away
    rw [List.mem_append,not_or] at away
    have state := ih away.1
    have quiet {task : Task} (working : task ≠ .done) : u.reconnecting ≠ some task := by
      intro here
      exact working (running_eq_false.mp state.idle task here)
    cases step_moves deadband moved with
    | connect => exact absurd (by simp) away.2
    | watch opened =>
      rw [state.session] at opened
      cases opened
    | refused => exact ⟨state.closing,state.session,state.idle,state.tasks⟩
    | disconnect =>
      rcases cancel_cases u with ⟨same,idle⟩ | ⟨_,running⟩
      · rw [same]
        exact ⟨rfl,state.session,idle,state.tasks⟩
      · cases state.idle.symm.trans running
    | disconnected => exact ⟨state.closing,rfl,state.idle,state.tasks⟩
    | dropped => exact ⟨state.closing,rfl,state.idle,state.tasks⟩
    | noticed running => cases running.symm.trans state.closing
    | wakes here => exact absurd here (quiet (by simp))
    | connects here => exact absurd here (quiet (by simp))
    | subscribes here => exact absurd here (quiet (by simp))
    | retries _ here => exact absurd here (quiet (by simp))
    | ends _ here => exact absurd here (quiet (by simp))
    | resubscribes here => exact absurd here (quiet (by simp))
    | reconnected here => exact absurd here (quiet (by simp))
    | restored here => exact absurd here (quiet (by simp))
    | unwinds here => exact absurd here (quiet (by simp))
    | notify opened =>
      rw [state.session] at opened
      cases opened
  have whole : run (step deadband) {} (before ++ [.disconnected] ++ after) = some t := by
    rw [run_append,left]
    exact reached
  exact ⟨stays,(run_kempt deadband whole).done stays.idle⟩

/-- A loss that is reported late and a second disconnect find the controller as the first one left it. -/
theorem disconnect_final_outage :
    ∃ s t, run (step (1 / 100)) {} outage = some s ∧ run (step (1 / 100)) s [.lost,.disconnect,.disconnected] = some t ∧
      Left [.done] t := by
  obtain ⟨s,left⟩ := Option.isSome_iff_exists.mp (by decide +kernel : (run (step (1 / 100)) {} outage).isSome)
  have ends : (run (step (1 / 100)) {} (outage ++ [.lost,.disconnect,.disconnected])).map State.tasks = some [.done] := by
    decide +kernel
  obtain ⟨t,whole,tasks⟩ := Option.map_eq_some_iff.mp ends
  rw [run_append,left] at whole
  have kept := (@disconnect_final (1 / 100) outage.dropLast _ _ _ left whole (by simp)).1
  exact ⟨s,t,left,whole,kept.closing,kept.session,kept.idle,tasks⟩

/-! ### Losses -/

/-- With a sink and until it closes, the controller has its subscription or a task that is
    still to make requests for it. -/
def Kept (s : State) : Prop :=
  s.sink = true → s.closing = false → s.session = .up true ∨ ∃ phase, phase ≠ .watched ∧ s.reconnecting = some (.live phase)

/-- The user's subscriptions are made, and the reconnect task catches what its requests raise. -/
def Caught : Action → Prop
  | .watch subscribes => subscribes = true
  | .fails caught _ => caught = true
  | _ => True

instance : ∀ a : Action, Decidable (Caught a)
  | .watch subscribes => inferInstanceAs (Decidable (subscribes = true))
  | .fails caught _ => inferInstanceAs (Decidable (caught = true))
  | .connect | .disconnect | .disconnected | .lost | .wakes | .connects | .subscribes | .resumes | .unwinds _ | .notify _ =>
    inferInstanceAs (Decidable True)

/-- The connection is not lost while the task has all its answers and has not run on. -/
def Unmissed (s : State) (a : Action) : Prop := a = .lost → s.reconnecting ≠ some (.live .watched)

instance (s : State) (a : Action) : Decidable (Unmissed s a) := inferInstanceAs (Decidable (_ → _))

theorem Moves.kept {s t : State} {a : Action} (moves : Moves s a t) (kempt : Kempt s) (kept : Kept s) (caught : Caught a)
    (unmissed : Unmissed s a) : Kept t := by
  -- A live task that is still to make requests.
  have working {phase : Phase} (other : phase ≠ .watched) (u : State) (here : u.reconnecting = some (.live phase)) : Kept u :=
    fun _ _ => .inr ⟨phase,other,here⟩
  cases moves with
  | connect closed =>
    intro sink running
    rcases kept sink running with opened | working
    · cases opened.symm.trans closed
    · exact .inr working
  | watch => exact fun _ _ => .inl (by simp [show _ = true from caught])
  | refused => cases caught
  | disconnect => exact fun _ running => by cases running
  | disconnected leaving => exact fun _ running => by cases running.symm.trans (kempt.leaving leaving)
  | dropped attended =>
    intro sink running
    rcases attended with closing | busy
    · cases running.symm.trans closing
    · cases here : s.reconnecting with
      | none => simp [State.running,here] at busy
      | some task =>
        cases task with
        | live phase => exact .inr ⟨phase,fun same => unmissed rfl (same ▸ here),rfl⟩
        | cancelled => cases running.symm.trans (kempt.cancelled here)
        | done => simp [State.running,here] at busy
  | noticed => exact working (by simp) _ rfl
  | wakes => exact @working .connecting (by simp) _ rfl
  | connects => exact @working .connected (by simp) _ rfl
  | subscribes => exact fun _ _ => .inl rfl
  | retries => exact @working .sleeping (by simp) _ rfl
  | ends _ _ _ _ uncaught =>
    exact fun _ running => by cases running.symm.trans (uncaught caught)
  | resubscribes => exact @working .watching (by simp) _ rfl
  | reconnected _ none => exact fun sink => by cases none.symm.trans sink
  | restored here =>
    intro sink running
    rcases kept sink running with opened | ⟨phase,other,here'⟩
    · exact .inl opened
    · rw [here] at here'
      cases here'
      exact absurd rfl other
  | unwinds here => exact fun _ running => by cases running.symm.trans (kempt.cancelled here)
  | notify => exact kept

/-- A step that leaves the subscription kept. -/
def Keeps (s : State) (a : Action) : Prop := ∀ t, step deadband s a = some t → Kept t

/-- As long as every subscription is made and every failure caught, the subscription is kept at
    every step of a run exactly when no loss comes between the last answer to a reconnect
    task and its next turn. -/
theorem session_kept_iff {actions : List Action} (caught : ∀ a ∈ actions, Caught a) :
    Along (step deadband) (Keeps deadband) {} actions ↔ Along (step deadband) Unmissed {} actions := by
  refine along_congr (I := fun s => Kempt s ∧ Kept s)
    ⟨⟨by simp,by simp,by simp,by simp,by simp⟩,fun sink => by cases sink⟩ ?_ ?_ actions (along_of_forall caught _)
  · rintro s a ⟨kempt,kept⟩ caught
    constructor
    · rintro keeps rfl here
      have sink := kempt.sink (.inr here)
      have running : s.closing = false := by
        by_contra closing
        exact kempt.closing (by simpa using closing) .watched here
      have moved : step deadband s .lost = some { s with session := .down } := by simp [step,State.running,here]
      rcases keeps _ moved sink running with opened | ⟨phase,other,here'⟩
      · cases opened
      · simp only [here,Option.some.injEq,Task.live.injEq] at here'
        exact other here'.symm
    · exact fun unmissed t moved => (step_moves deadband moved).kept kempt kept caught unmissed
  · rintro s a t ⟨kempt,_⟩ _ keeps moved
    exact ⟨(step_moves deadband moved).kempt kempt,keeps t moved⟩

/-- A turn of the reconnect task, or a notification. -/
def Turn : Action → Prop
  | .wakes | .connects | .subscribes | .fails _ _ | .resumes | .unwinds _ | .notify _ => True
  | _ => False

/-- At every state that a run comes to with a sink, before the controller closes: the task's own
    turns can bring the subscription up exactly when it is kept. A subscription that is not
    there already comes up with nothing remembered of the updates passed on before. -/
theorem recovers_iff {actions : List Action} {s : State} (reached : run (step deadband) {} actions = some s)
    (sink : s.sink = true) (running : s.closing = false) :
    (Kept s ↔ ∃ turns t, (∀ a ∈ turns, Turn a) ∧ run (step deadband) s turns = some t ∧ t.session = .up true) ∧
      (Kept s → s.session = .up true ∨ ∃ turns t, (∀ a ∈ turns, Turn a) ∧ turns.length ≤ 7 ∧
        run (step deadband) s turns = some t ∧ t.session = .up true ∧ t.running = false ∧ t.reported = watched) := by
  have kempt := run_kempt deadband reached
  have comes : Kept s → s.session = .up true ∨ ∃ turns t, (∀ a ∈ turns, Turn a) ∧ turns.length ≤ 7 ∧
      run (step deadband) s turns = some t ∧ t.session = .up true ∧ t.running = false ∧ t.reported = watched := by
    intro kept
    refine (kept sink running).imp_right ?_
    rintro ⟨phase,other,here⟩
    -- Its requests answered, the task ends in this state.
    let restored : State := { s.turn .done with session := .up true, reported := watched }
    cases phase with
    | sleeping =>
      refine ⟨[.wakes,.connects,.resumes,.subscribes,.resumes],restored,by simp [Turn],by simp,?_,rfl,rfl,rfl⟩
      simp [run,step,here,State.turn,sink,restored]
    | connecting =>
      refine ⟨[.connects,.resumes,.subscribes,.resumes],restored,by simp [Turn],by simp,?_,rfl,rfl,rfl⟩
      simp [run,step,here,State.turn,sink,restored]
    | connected =>
      refine ⟨[.resumes,.fails true false,.wakes,.connects,.resumes,.subscribes,.resumes],restored,by simp [Turn],by simp,?_,
        rfl,rfl,rfl⟩
      simp [run,step,here,State.turn,sink,running,restored]
    | watching =>
      refine ⟨[.fails true false,.wakes,.connects,.resumes,.subscribes,.resumes],restored,by simp [Turn],by simp,?_,
        rfl,rfl,rfl⟩
      simp [run,step,here,State.turn,sink,running,restored]
    | watched => exact absurd rfl other
  refine ⟨⟨fun kept => ?_,?_⟩,comes⟩
  · rcases comes kept with opened | ⟨turns,t,only,_,come,up,_⟩
    · exact ⟨[],s,by simp,rfl,opened⟩
    · exact ⟨turns,t,only,come,up⟩
  · rintro ⟨turns,t,only,come,up⟩
    by_contra unkept
    simp only [Kept,sink,running,forall_const,not_or,not_exists,not_and] at unkept
    obtain ⟨closed,finished⟩ := unkept
    -- No turn makes a request any more.
    have stays : t.session ≠ .up true ∧ t.closing = false ∧ (∀ phase, phase ≠ .watched → t.reconnecting ≠ some (.live phase)) ∧
        t.reconnecting ≠ some .cancelled := by
      refine run_induction (P := fun turns t => (∀ a ∈ turns, Turn a) → t.session ≠ .up true ∧ t.closing = false ∧
        (∀ phase, phase ≠ .watched → t.reconnecting ≠ some (.live phase)) ∧ t.reconnecting ≠ some .cancelled) ?_ ?_ turns t come
        only
      · refine fun _ => ⟨closed,running,finished,fun here => ?_⟩
        cases running.symm.trans (kempt.cancelled here)
      · intro turns u a v _ ih moved only
        obtain ⟨down,staying,quiet,whole⟩ := ih fun b member => only b (List.mem_append_left _ member)
        have turn := only a (by simp)
        cases step_moves deadband moved with
        | connect | watch | refused | disconnect | disconnected | dropped | noticed => cases turn
        | wakes here => exact absurd here (quiet _ (by simp))
        | connects here => exact absurd here (quiet _ (by simp))
        | subscribes here => exact absurd here (quiet _ (by simp))
        | retries asking here => exact absurd here (quiet _ asking)
        | ends asking here => exact absurd here (quiet _ asking)
        | resubscribes here => exact absurd here (quiet _ (by simp))
        | reconnected here => exact absurd here (quiet _ (by simp))
        | restored here => exact ⟨down,staying,by simp [State.turn],by simp [State.turn]⟩
        | unwinds here => exact absurd here whole
        | notify opened => exact absurd opened down
    exact stays.1 up

end

/-- The loss that falls between the last answer to the task and its next turn is missed, and any
    other is not. -/
theorem session_kept_iff_missed :
    let restored := [.connect,.watch true,.lost,.wakes,.connects,.resumes,.subscribes]
    Along (step (1 / 100)) (Keeps (1 / 100)) {} (restored ++ [.resumes,.lost,.wakes]) ∧
      ¬ Along (step (1 / 100)) (Keeps (1 / 100)) {} (restored ++ [.lost,.resumes]) := by
  intro restored
  have missed : ¬ Along (step (1 / 100)) Unmissed {} (restored ++ [.lost,.resumes]) := by decide +kernel
  exact ⟨(session_kept_iff (1 / 100) (by decide)).mpr (by decide +kernel),
    fun keeps => missed ((session_kept_iff (1 / 100) (by decide)).mp keeps)⟩

/-- After the missed loss no turn brings the subscription up again. -/
theorem recovers_iff_missed :
    let actions := [.connect,.watch true,.lost,.wakes,.connects,.resumes,.subscribes,.lost,.resumes]
    ∃ s, run (step (1 / 100)) {} actions = some s ∧
      ¬ ∃ turns t, (∀ a ∈ turns, Turn a) ∧ run (step (1 / 100)) s turns = some t ∧ t.session = .up true := by
  intro actions
  have ends : (run (step (1 / 100)) {} actions).map (fun s => (s.sink,s.closing,s.session,s.reconnecting)) =
      some (true,false,.down,some .done) := by decide +kernel
  obtain ⟨s,reached,final⟩ := Option.map_eq_some_iff.mp ends
  simp only [Prod.mk.injEq] at final
  obtain ⟨sink,running,closed,finished⟩ := final
  have unkept : ¬ Kept s := by simp [Kept,sink,running,closed,finished]
  exact ⟨s,reached,fun recovers => unkept ((recovers_iff (1 / 100) reached sink running).1.mpr recovers)⟩

end MockPlant.Sessions
