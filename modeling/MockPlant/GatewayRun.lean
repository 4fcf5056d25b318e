import MockPlant.Runs

/-!
The gateway's life, from the start of its server to the end of `run`. The poll loop and the
wait for `stop` are tasks of their own, `run` waits for the first of them and cancels the
other, and it may fail or be cancelled itself wherever it awaits. What it leaves behind
depends on where that was.
-/
namespace MockPlant.GatewayRun
open MockPlant.Runs

/-! ### The gateway -/

inductive Outcome
  | returned
  | raised
  | cancelled
deriving DecidableEq

/-- A task of `run`. A cancelled one is done when the exception has gone through it. -/
inductive Task
  | working
  | cancelling
  | finished
  | failed
  | cancelled
deriving DecidableEq

def Task.done : Task → Bool
  | .working | .cancelling => false
  | .finished | .failed | .cancelled => true

/-- `cancel` of a task, if it is not done. -/
def Task.cancel (task : Task) : Task := if task.done then task else .cancelling

/-- Where `run` stands. It gathers what it has cancelled with the poll loop failed or not, and
    perhaps cancelled itself, and leaves the server with what is to become of the call. -/
inductive Phase
  | starting
  | connecting
  | priming
  | historizing
  | waiting
  | gathering (failed cancelled : Bool)
  | leaving (outcome : Outcome)
  | ended (outcome : Outcome)
deriving DecidableEq

structure State where
  phase : Phase := .starting
  stopping : Bool := false
  primed : Bool := false
  serving : Bool := false
  linkClosed : Bool := false
  poll : Option Task := none
  stop : Option Task := none
deriving DecidableEq

/-- The call of `stop`, what comes of what `run` awaits, its cancellation from outside, and the
    turns of the two tasks. The poll loop may take its cancellation for a failed read, and so
    may the priming, which awaits the same `poll_once`. -/
inductive Action
  | stop
  | completes
  | fails
  | wakes
  | gathers
  | cancel
  | primingSwallows
  | stopSeen
  | pollFails
  | pollUnwinds
  | stopUnwinds
  | swallowed
deriving DecidableEq

/-- No task is at work. -/
def State.idle (s : State) : Bool := s.poll.all Task.done && s.stop.all Task.done

def State.cancelTasks (s : State) : State := { s with poll := s.poll.map Task.cancel, stop := s.stop.map Task.cancel }

def result (failed cancelled : Bool) : Outcome := if cancelled then .cancelled else if failed then .raised else .returned

def step (s : State) : Action → Option State
  | .stop => some { s with stopping := true }
  | .completes =>
    match s.phase with
    | .starting => some { s with phase := .connecting, serving := true }
    | .connecting => some { s with phase := .priming }
    | .priming => some { s with phase := .historizing, primed := true }
    | .historizing => some { s with phase := .waiting, poll := some .working, stop := some .working }
    | .leaving outcome => some { s with phase := .ended outcome, serving := false }
    | _ => none
  | .fails =>
    match s.phase with
    | .starting | .leaving _ => some { s with phase := .ended .raised }
    | .connecting | .priming | .historizing => some { s with phase := .leaving .raised }
    | _ => none
  | .cancel =>
    match s.phase with
    | .starting | .leaving _ => some { s with phase := .ended .cancelled }
    | .connecting | .priming | .historizing => some { s with phase := .leaving .cancelled }
    | .waiting => some { s with phase := .leaving .cancelled, linkClosed := true }
    | .gathering failed _ => some { s.cancelTasks with phase := .gathering failed true }
    | .ended _ => none
  | .primingSwallows => if s.phase = .priming then some s else none
  | .wakes =>
    -- The wait is over when one task is done, and looks again at both when it resumes.
    if s.phase = .waiting ∧ (s.poll.any Task.done || s.stop.any Task.done) then
      some { s.cancelTasks with phase := .gathering (s.poll = some .failed) false }
    else none
  | .gathers =>
    match s.phase with
    | .gathering failed cancelled =>
      if s.idle then some { s with phase := .leaving (result failed cancelled), linkClosed := true } else none
    | _ => none
  | .stopSeen => if s.stop = some .working ∧ s.stopping then some { s with stop := some .finished } else none
  | .pollFails => if s.poll.any (fun task => !task.done) then some { s with poll := some .failed } else none
  | .pollUnwinds => if s.poll = some .cancelling then some { s with poll := some .cancelled } else none
  | .stopUnwinds => if s.stop = some .cancelling then some { s with stop := some .cancelled } else none
  | .swallowed => if s.poll = some .cancelling then some { s with poll := some .working } else none

/-- What a step does. -/
inductive Moves (s : State) : Action → State → Prop
  | asked : Moves s .stop { s with stopping := true }
  | started (here : s.phase = .starting) : Moves s .completes { s with phase := .connecting, serving := true }
  | connected (here : s.phase = .connecting) : Moves s .completes { s with phase := .priming }
  | primed (here : s.phase = .priming) : Moves s .completes { s with phase := .historizing, primed := true }
  | waits (here : s.phase = .historizing) :
      Moves s .completes { s with phase := .waiting, poll := some .working, stop := some .working }
  | left {outcome : Outcome} (here : s.phase = .leaving outcome) :
      Moves s .completes { s with phase := .ended outcome, serving := false }
  | refused {a : Action} {outcome : Outcome} (cut : a = .fails ∧ outcome = .raised ∨ a = .cancel ∧ outcome = .cancelled)
      (here : s.phase = .starting ∨ ∃ before, s.phase = .leaving before) : Moves s a { s with phase := .ended outcome }
  | unready {a : Action} {outcome : Outcome} (cut : a = .fails ∧ outcome = .raised ∨ a = .cancel ∧ outcome = .cancelled)
      (here : s.phase = .connecting ∨ s.phase = .priming ∨ s.phase = .historizing) :
      Moves s a { s with phase := .leaving outcome }
  | struck (here : s.phase = .waiting) : Moves s .cancel { s with phase := .leaving .cancelled, linkClosed := true }
  | interrupted {failed cancelled : Bool} (here : s.phase = .gathering failed cancelled) :
      Moves s .cancel { s.cancelTasks with phase := .gathering failed true }
  | primingSwallows (here : s.phase = .priming) : Moves s .primingSwallows s
  | wakes (here : s.phase = .waiting) (ready : s.poll.any Task.done = true ∨ s.stop.any Task.done = true) :
      Moves s .wakes { s.cancelTasks with phase := .gathering (s.poll = some .failed) false }
  | gathers {failed cancelled : Bool} (here : s.phase = .gathering failed cancelled) (idle : s.idle = true) :
      Moves s .gathers { s with phase := .leaving (result failed cancelled), linkClosed := true }
  | stopSeen (working : s.stop = some .working) (stopping : s.stopping = true) :
      Moves s .stopSeen { s with stop := some .finished }
  | pollFails {task : Task} (here : s.poll = some task) (undone : task.done = false) :
      Moves s .pollFails { s with poll := some .failed }
  | pollUnwinds (here : s.poll = some .cancelling) : Moves s .pollUnwinds { s with poll := some .cancelled }
  | stopUnwinds (here : s.stop = some .cancelling) : Moves s .stopUnwinds { s with stop := some .cancelled }
  | swallowed (here : s.poll = some .cancelling) : Moves s .swallowed { s with poll := some .working }

theorem step_moves {s t : State} {a : Action} (moved : step s a = some t) : Moves s a t := by
  cases a with
  | stop =>
    cases moved
    exact .asked
  | completes =>
    simp only [step] at moved
    split at moved <;> cases moved
    case h_1 here => exact .started here
    case h_2 here => exact .connected here
    case h_3 here => exact .primed here
    case h_4 here => exact .waits here
    case h_5 here => exact .left here
  | fails =>
    simp only [step] at moved
    split at moved <;> cases moved
    case h_1 here => exact .refused (.inl ⟨rfl,rfl⟩) (.inl here)
    case h_2 outcome here => exact .refused (.inl ⟨rfl,rfl⟩) (.inr ⟨outcome,here⟩)
    case h_3 here => exact .unready (.inl ⟨rfl,rfl⟩) (.inl here)
    case h_4 here => exact .unready (.inl ⟨rfl,rfl⟩) (.inr (.inl here))
    case h_5 here => exact .unready (.inl ⟨rfl,rfl⟩) (.inr (.inr here))
  | cancel =>
    simp only [step] at moved
    split at moved <;> cases moved
    case h_1 here => exact .refused (.inr ⟨rfl,rfl⟩) (.inl here)
    case h_2 outcome here => exact .refused (.inr ⟨rfl,rfl⟩) (.inr ⟨outcome,here⟩)
    case h_3 here => exact .unready (.inr ⟨rfl,rfl⟩) (.inl here)
    case h_4 here => exact .unready (.inr ⟨rfl,rfl⟩) (.inr (.inl here))
    case h_5 here => exact .unready (.inr ⟨rfl,rfl⟩) (.inr (.inr here))
    case h_6 here => exact .struck here
    case h_7 here => exact .interrupted here
  | primingSwallows =>
    simp only [step] at moved
    split_ifs at moved with here
    cases moved
    exact .primingSwallows here
  | wakes =>
    simp only [step] at moved
    split_ifs at moved with ready
    cases moved
    exact .wakes ready.1 (by simpa using ready.2)
  | gathers =>
    simp only [step] at moved
    split at moved
    case h_2 => cases moved
    case h_1 here =>
      split_ifs at moved with idle
      cases moved
      exact .gathers here idle
  | stopSeen =>
    simp only [step] at moved
    split_ifs at moved with ready
    cases moved
    exact .stopSeen ready.1 ready.2
  | pollFails =>
    simp only [step] at moved
    split_ifs at moved with undone
    cases moved
    obtain ⟨task,here,undone⟩ := (Option.any_eq_true _ _).mp undone
    exact .pollFails here (by simpa using undone)
  | pollUnwinds =>
    simp only [step] at moved
    split_ifs at moved with here
    cases moved
    exact .pollUnwinds here
  | stopUnwinds =>
    simp only [step] at moved
    split_ifs at moved with here
    cases moved
    exact .stopUnwinds here
  | swallowed =>
    simp only [step] at moved
    split_ifs at moved with here
    cases moved
    exact .swallowed here

/-! ### What a run leaves behind -/

/-- Nothing that `run` awaits fails, it is not cancelled but where the priming swallows it, and
    the poll loop has not failed when the wait is over. -/
def Smooth (s : State) : Action → Prop
  | .fails | .cancel => False
  | .wakes => s.poll ≠ some .failed
  | _ => True

/-- The cancellation from outside does not come in the wait for the tasks. -/
def Spared (s : State) (a : Action) : Prop := a = .cancel → s.phase ≠ .waiting

/-- What holds at each point of `run`, when its steps so far have been smooth or not, and have spared
    the wait or not. -/
def Stands (smooth spared : Prop) (s : State) : Prop :=
  match s.phase with
  | .starting | .connecting | .priming => smooth ∧ s.linkClosed = false ∧ s.poll = none ∧ s.stop = none
  | .historizing => smooth ∧ s.linkClosed = false ∧ s.poll = none ∧ s.stop = none ∧ s.primed = true
  | .waiting => smooth ∧ s.linkClosed = false ∧ s.primed = true ∧ (s.poll = some .working ∨ s.poll = some .failed) ∧
      (s.stop = some .working ∨ s.stop = some .finished ∧ s.stopping = true)
  | .gathering failed cancelled => (smooth ↔ failed = false ∧ cancelled = false) ∧ s.linkClosed = false ∧
      s.primed = true ∧ s.poll.isSome ∧ s.stop.isSome ∧ (failed = false → s.stopping = true)
  | .leaving outcome => (smooth ↔ outcome = .returned) ∧ (s.linkClosed = s.poll.isSome) ∧
      (spared → s.idle = true) ∧ (outcome = .returned → s.stopping = true ∧ s.primed = true ∧ s.linkClosed = true)
  | .ended outcome => (smooth ↔ outcome = .returned) ∧ (s.linkClosed = s.poll.isSome) ∧ (spared → s.idle = true) ∧
      (outcome = .returned → s.stopping = true ∧ s.primed = true ∧ s.linkClosed = true ∧ s.serving = false)

section
variable {smooth spared : Prop} {s t : State} {a : Action}

@[simp] theorem Task.done_cancel (task : Task) : task.cancel.done = task.done := by cases task <;> rfl

/-- A turn of a task that is at work. In the wait the poll loop fails at most, and the other task ends
    when it is asked to stop. -/
theorem Stands.turn (stands : Stands smooth spared s) {poll stop : Option Task} (samePoll : poll.isSome = s.poll.isSome)
    (sameStop : stop.isSome = s.stop.isSome) (busy : s.idle = false)
    (waits : s.phase = .waiting → (poll = some .working ∨ poll = some .failed) ∧
      (stop = some .working ∨ stop = some .finished ∧ s.stopping = true)) : Stands smooth spared { s with poll, stop } := by
  have at_ (idle : spared → s.idle = true) (settled : spared) : State.idle { s with poll, stop } = true := by
    cases busy.symm.trans (idle settled)
  have gone {task task' : Option Task} (same : task'.isSome = task.isSome) (none : task = none) : task' = .none := by
    subst none
    simpa using same
  unfold Stands at stands ⊢
  cases phase : s.phase with
  | starting | connecting | priming =>
    simp only [phase] at stands ⊢
    exact ⟨stands.1,stands.2.1,gone samePoll stands.2.2.1,gone sameStop stands.2.2.2⟩
  | historizing =>
    simp only [phase] at stands ⊢
    exact ⟨stands.1,stands.2.1,gone samePoll stands.2.2.1,gone sameStop stands.2.2.2.1,stands.2.2.2.2⟩
  | waiting =>
    simp only [phase] at stands ⊢
    exact ⟨stands.1,stands.2.1,stands.2.2.1,waits phase⟩
  | gathering =>
    simp only [phase] at stands ⊢
    rw [samePoll,sameStop]
    exact stands
  | leaving | ended =>
    simp only [phase] at stands ⊢
    exact ⟨stands.1,stands.2.1.trans samePoll.symm,at_ stands.2.2.1,stands.2.2.2⟩

theorem Stands.asked (stands : Stands smooth spared s) : Stands smooth spared { s with stopping := true } := by
  unfold Stands at stands ⊢
  cases phase : s.phase with
  | starting | connecting | priming | historizing =>
    simp only [phase] at stands ⊢
    exact stands
  | waiting =>
    simp only [phase] at stands ⊢
    obtain ⟨easy,opened,primed,poll,stop⟩ := stands
    exact ⟨easy,opened,primed,poll,stop.imp_right fun seen => ⟨seen.1,trivial⟩⟩
  | gathering =>
    simp only [phase] at stands ⊢
    exact ⟨stands.1,stands.2.1,stands.2.2.1,stands.2.2.2.1,stands.2.2.2.2.1,fun _ => trivial⟩
  | leaving | ended =>
    simp only [phase] at stands ⊢
    exact ⟨stands.1,stands.2.1,stands.2.2.1,fun returned => ⟨trivial,(stands.2.2.2 returned).2⟩⟩

theorem Moves.stands (moves : Moves s a t) (stands : Stands smooth spared s) :
    Stands (smooth ∧ Smooth s a) (spared ∧ Spared s a) t := by
  have spares (other : a ≠ .cancel) : spared ∧ Spared s a ↔ spared := and_iff_left fun same => absurd same other
  have turn {poll stop : Option Task} (easy : Smooth s a) (other : a ≠ .cancel)
      (turned : Stands smooth spared { s with poll, stop }) :
      Stands (smooth ∧ Smooth s a) (spared ∧ Spared s a) { s with poll, stop } := by
    rwa [propext (and_iff_left easy),propext (spares other)]
  have cut {outcome : Outcome} (cut : a = .fails ∧ outcome = .raised ∨ a = .cancel ∧ outcome = .cancelled) :
      (smooth ∧ Smooth s a ↔ outcome = .returned) ∧ outcome ≠ .returned := by
    rcases cut with ⟨rfl,rfl⟩ | ⟨rfl,rfl⟩ <;> simp [Smooth]
  have none {s : State} (poll : s.poll = none) (stop : s.stop = none) : s.idle = true := by simp [State.idle,poll,stop]
  cases moves with
  | asked =>
    rw [propext (and_iff_left (show Smooth s .stop from trivial)),propext (spares (by simp))]
    exact stands.asked
  | started here =>
    simp only [Stands,here] at stands
    exact ⟨⟨stands.1,trivial⟩,stands.2⟩
  | connected here =>
    simp only [Stands,here] at stands
    exact ⟨⟨stands.1,trivial⟩,stands.2⟩
  | primed here =>
    simp only [Stands,here] at stands
    exact ⟨⟨stands.1,trivial⟩,stands.2.1,stands.2.2.1,stands.2.2.2,rfl⟩
  | waits here =>
    simp only [Stands,here] at stands
    exact ⟨⟨stands.1,trivial⟩,stands.2.1,stands.2.2.2.2,.inl rfl,.inl rfl⟩
  | left here =>
    simp only [Stands,here] at stands
    obtain ⟨smoothly,closed,idle,returned⟩ := stands
    refine ⟨(and_iff_left trivial).trans smoothly,closed,fun settled => idle settled.1,fun back => ?_⟩
    obtain ⟨stopping,primed,linkClosed⟩ := returned back
    exact ⟨stopping,primed,linkClosed,rfl⟩
  | refused failure here =>
    obtain ⟨smoothly,unreturned⟩ := cut failure
    rcases here with here | ⟨before,here⟩
    · simp only [Stands,here] at stands
      obtain ⟨_,opened,poll,stop⟩ := stands
      exact ⟨smoothly,by rw [opened,poll]; rfl,fun _ => none poll stop,fun back => absurd back unreturned⟩
    · simp only [Stands,here] at stands
      exact ⟨smoothly,stands.2.1,fun settled => stands.2.2.1 settled.1,fun back => absurd back unreturned⟩
  | unready failure here =>
    obtain ⟨smoothly,unreturned⟩ := cut failure
    have early : s.linkClosed = false ∧ s.poll = .none ∧ s.stop = .none := by
      rcases here with here | here | here <;> simp only [Stands,here] at stands
      · exact stands.2
      · exact stands.2
      · exact ⟨stands.2.1,stands.2.2.1,stands.2.2.2.1⟩
    obtain ⟨opened,poll,stop⟩ := early
    exact ⟨smoothly,by rw [opened,poll]; rfl,fun _ => none poll stop,fun back => absurd back unreturned⟩
  | struck here =>
    simp only [Stands,here] at stands
    have made : s.poll.isSome = true := by rcases stands.2.2.2.1 with poll | poll <;> simp [poll]
    exact ⟨by simp [Smooth],made.symm,fun settled => absurd here (settled.2 rfl),by simp⟩
  | interrupted here =>
    simp only [Stands,here] at stands
    obtain ⟨_,opened,primed,poll,stop,stopping⟩ := stands
    exact ⟨by simp [Smooth],opened,primed,by simpa [State.cancelTasks] using poll,by simpa [State.cancelTasks] using stop,
      stopping⟩
  | primingSwallows here =>
    rw [propext (and_iff_left (show Smooth s .primingSwallows from trivial)),propext (spares (by simp))]
    exact stands
  | wakes here ready =>
    simp only [Stands,here] at stands
    obtain ⟨smoothly,opened,primed,poll,stop⟩ := stands
    refine ⟨by simp [Smooth,smoothly],opened,primed,?_,?_,fun alive => ?_⟩
    · rcases poll with poll | poll <;> simp [State.cancelTasks,poll]
    · rcases stop with stop | ⟨stop,_⟩ <;> simp [State.cancelTasks,stop]
    · -- The poll loop is at work, so it is the other task that has ended the wait.
      have working : s.poll = some .working := poll.resolve_right (by simpa using alive)
      have ended : s.stop.any Task.done = true := ready.resolve_left (by simp [working,Task.done])
      rcases stop with stop | ⟨_,stopping⟩
      · simp [stop,Task.done] at ended
      · exact stopping
  | @gathers failed cancelled here idle =>
    simp only [Stands,here] at stands
    obtain ⟨smoothly,opened,primed,poll,stop,stopping⟩ := stands
    have returned : result failed cancelled = .returned ↔ failed = false ∧ cancelled = false := by
      cases failed <;> cases cancelled <;> simp [result]
    refine ⟨(and_iff_left trivial).trans (smoothly.trans returned.symm),poll.symm,fun _ => idle,fun back => ?_⟩
    exact ⟨stopping (returned.mp back).1,primed,rfl⟩
  | stopSeen working stopping =>
    refine turn trivial (by simp) (stands.turn rfl (by simp [working]) (by simp [State.idle,working,Task.done]) fun here => ?_)
    simp only [Stands,here] at stands
    exact ⟨stands.2.2.2.1,.inr ⟨rfl,stopping⟩⟩
  | pollFails here undone =>
    refine turn trivial (by simp) (stands.turn (by simp [here]) rfl (by simp [State.idle,here,undone]) fun waiting => ?_)
    simp only [Stands,waiting] at stands
    exact ⟨.inr rfl,stands.2.2.2.2⟩
  | pollUnwinds here =>
    refine turn trivial (by simp) (stands.turn (by simp [here]) rfl (by simp [State.idle,here,Task.done]) fun waiting => ?_)
    simp [Stands,waiting,here] at stands
  | stopUnwinds here =>
    refine turn trivial (by simp) (stands.turn rfl (by simp [here]) (by simp [State.idle,here,Task.done]) fun waiting => ?_)
    simp [Stands,waiting,here] at stands
  | swallowed here =>
    refine turn trivial (by simp) (stands.turn (by simp [here]) rfl (by simp [State.idle,here,Task.done]) fun waiting => ?_)
    simp [Stands,waiting,here] at stands

end

theorem along_step {P : State → Action → Prop} {actions : List Action} {s : State} {a : Action}
    (reached : run step {} actions = some s) : Along step P {} (actions ++ [a]) ↔ Along step P {} actions ∧ P s a := by
  rw [along_concat]
  refine and_congr_right fun _ => ⟨fun here => here s reached,fun holds t again => ?_⟩
  exact Option.some.inj (reached.symm.trans again) ▸ holds

theorem run_stands {actions : List Action} {s : State} (reached : run step {} actions = some s) :
    Stands (Along step Smooth {} actions) (Along step Spared {} actions) s := by
  have start : Stands (Along step Smooth {} []) (Along step Spared {} []) {} := ⟨trivial,rfl,rfl,rfl⟩
  refine run_induction (P := fun actions s => Stands (Along step Smooth {} actions) (Along step Spared {} actions) s)
    start (fun actions s a t before stands moved => ?_) actions s reached
  rw [propext (along_step before),propext (along_step before)]
  exact (step_moves moved).stands stands

/-- When `run` has ended: it has returned exactly if nothing that it awaited failed, it was not cancelled,
    but where the priming swallowed it, and the poll loop had not failed when the wait was over; then it
    was asked to stop and had primed the nodes, and the server and the link are down. In any case the
    link is closed exactly if the tasks were created, and no task is at work unless the cancellation
    came in the wait for them. -/
theorem run_returns_iff {actions : List Action} {s : State} (reached : run step {} actions = some s) {outcome : Outcome}
    (ended : s.phase = .ended outcome) : (outcome = .returned ↔ Along step Smooth {} actions) ∧
      (outcome = .returned → s.stopping = true ∧ s.primed = true ∧ s.linkClosed = true ∧ s.serving = false) ∧
      s.linkClosed = s.poll.isSome ∧ (Along step Spared {} actions → s.idle = true) := by
  have stands := run_stands reached
  simp only [Stands,ended] at stands
  exact ⟨stands.1.symm,stands.2.2.2,stands.2.1,stands.2.2.1⟩

/-! ### The end of a run -/

/-- A turn of `run` or of one of its tasks. -/
def Turn (a : Action) : Prop := a ≠ .stop ∧ a ≠ .cancel ∧ a ≠ .primingSwallows ∧ a ≠ .swallowed

def Phase.rank : Phase → ℕ
  | .starting => 9
  | .connecting => 8
  | .priming => 7
  | .historizing => 6
  | .waiting => 3
  | .gathering _ _ => 2
  | .leaving _ => 1
  | .ended _ => 0

def weight (task : Option Task) : ℕ := if task.all Task.done then 0 else 1

/-- The turns that are left at most. -/
def State.rest (s : State) : ℕ := s.phase.rank + weight s.poll + weight s.stop

@[simp] theorem weight_cancel (task : Option Task) : weight (task.map Task.cancel) = weight task := by
  cases task <;> simp [weight]

theorem Moves.rest {s t : State} {a : Action} (moves : Moves s a t) (turn : Turn a) : t.rest < s.rest := by
  cases moves with
  | asked => exact absurd rfl turn.1
  | started here | connected here | primed here | left here => simp [State.rest,here,Phase.rank]
  | waits here =>
    simp [State.rest,here,Phase.rank,weight,Task.done]
    omega
  | refused _ here =>
    rcases here with here | ⟨before,here⟩ <;> simp [State.rest,here,Phase.rank]
  | unready _ here =>
    rcases here with here | here | here <;> simp [State.rest,here,Phase.rank]
  | struck => exact absurd rfl turn.2.1
  | interrupted => exact absurd rfl turn.2.1
  | primingSwallows => exact absurd rfl turn.2.2.1
  | wakes here => simp [State.rest,State.cancelTasks,here,Phase.rank]
  | gathers here => simp [State.rest,here,Phase.rank]
  | stopSeen working => simp [State.rest,working,weight,Task.done]
  | pollFails here undone => simp [State.rest,here,undone,weight,show Task.failed.done = true from rfl]
  | pollUnwinds here => simp [State.rest,here,weight,Task.done]
  | stopUnwinds here => simp [State.rest,here,weight,Task.done]
  | swallowed => exact absurd rfl turn.2.2.2

theorem run_rest {turns : List Action} {s t : State} (turning : ∀ a ∈ turns, Turn a) (reached : run step s turns = some t) :
    t.rest + turns.length ≤ s.rest := by
  induction turns generalizing s with
  | nil =>
    cases reached
    exact le_refl _
  | cons a turns ih =>
    obtain ⟨next,moved,later⟩ := Option.bind_eq_some_iff.mp reached
    have here := (step_moves moved).rest (turning a List.mem_cons_self)
    have after := ih (fun b member => turning b (List.mem_cons_of_mem _ member)) later
    rw [List.length_cons]
    omega

/-- At most nine turns are left of a state that a run comes to. -/
theorem Stands.rest {smooth spared : Prop} {s : State} (stands : Stands smooth spared s) : s.rest ≤ 9 := by
  have light (task : Option Task) : weight task ≤ 1 := by
    unfold weight
    split_ifs <;> omega
  have poll := light s.poll
  have stop := light s.stop
  unfold Stands at stands
  unfold State.rest
  cases phase : s.phase with
  | starting | connecting | priming =>
    simp only [phase] at stands
    simp [stands.2.2.1,stands.2.2.2,weight,Phase.rank]
  | historizing =>
    simp only [phase] at stands
    simp [stands.2.2.1,stands.2.2.2.1,weight,Phase.rank]
  | waiting | gathering | leaving | ended =>
    simp only [Phase.rank]
    omega

/-- While the tasks are gathered none of them is left uncancelled, but for a poll loop that has swallowed
    its cancellation. -/
def Cancelled (actions : List Action) (s : State) : Prop :=
  ∀ failed cancelled, s.phase = .gathering failed cancelled →
    s.stop ≠ some .working ∧ (s.poll = some .working → .swallowed ∈ actions)

theorem run_cancelled {actions : List Action} {s : State} (reached : run step {} actions = some s) : Cancelled actions s := by
  refine run_induction (P := Cancelled) (by rintro _ _ ⟨⟩) (fun actions s a t _ ih moved => ?_) actions s reached
  have none (task : Option Task) : task.map Task.cancel ≠ some .working := by
    rcases task with _ | task
    · simp
    · cases task <;> simp [Task.cancel,Task.done]
  intro failed cancelled gathering
  cases step_moves moved with
  | asked => exact (ih _ _ gathering).imp_right fun swallowed working => List.mem_append_left _ (swallowed working)
  | interrupted => exact ⟨none _,fun working => absurd working (none _)⟩
  | primingSwallows here => cases gathering.symm.trans here
  | wakes => exact ⟨none _,fun working => absurd working (none _)⟩
  | stopSeen => exact ⟨by simp,fun working => List.mem_append_left _ ((ih _ _ gathering).2 working)⟩
  | pollFails => exact ⟨(ih _ _ gathering).1,by simp⟩
  | pollUnwinds => exact ⟨(ih _ _ gathering).1,by simp⟩
  | stopUnwinds => exact ⟨by simp,fun working => List.mem_append_left _ ((ih _ _ gathering).2 working)⟩
  | swallowed => exact ⟨(ih _ _ gathering).1,by simp⟩
  | _ => cases gathering

theorem run_stopping {actions : List Action} {s t : State} (reached : run step s actions = some t) (asked : s.stopping = true) :
    t.stopping = true := by
  induction actions generalizing s with
  | nil =>
    cases reached
    exact asked
  | cons a rest ih =>
    obtain ⟨next,moved,later⟩ := Option.bind_eq_some_iff.mp reached
    refine ih later ?_
    cases step_moves moved <;> first | exact asked | rfl

/-- Where no turn is possible but a failure of the poll loop, `run` has ended or waits for a poll loop
    that has swallowed its cancellation. -/
theorem stuck {actions : List Action} {s : State} (reached : run step {} actions = some s) (asked : s.stopping = true)
    (still : ∀ a, Turn a → a ≠ .pollFails → step s a = none) :
    (∃ outcome, s.phase = .ended outcome) ∨ s.poll = some .working ∧ .swallowed ∈ actions := by
  have stands := run_stands reached
  have completes := still .completes (by simp [Turn]) (by simp)
  unfold Stands at stands
  cases phase : s.phase with
  | starting | connecting | priming | historizing | leaving => simp [step,phase] at completes
  | ended outcome => exact .inl ⟨outcome,rfl⟩
  | waiting =>
    simp only [phase] at stands
    obtain ⟨_,_,_,_,working | ⟨finished,_⟩⟩ := stands
    · have seen := still .stopSeen (by simp [Turn]) (by simp)
      simp [step,working,asked] at seen
    · have wakes := still .wakes (by simp [Turn]) (by simp)
      simp [step,phase,finished,Task.done] at wakes
  | gathering failed cancelled =>
    simp only [phase] at stands
    obtain ⟨_,_,_,poll,stop,_⟩ := stands
    obtain ⟨unstopped,swallowed⟩ := run_cancelled reached failed cancelled phase
    obtain ⟨poll,here⟩ := Option.isSome_iff_exists.mp poll
    obtain ⟨stop,there⟩ := Option.isSome_iff_exists.mp stop
    have gathers := still .gathers (by simp [Turn]) (by simp)
    have pollUnwinds := still .pollUnwinds (by simp [Turn]) (by simp)
    have stopUnwinds := still .stopUnwinds (by simp [Turn]) (by simp)
    simp [step,phase,State.idle,here,there] at gathers pollUnwinds stopUnwinds
    cases poll with
    | working => exact .inr ⟨here,swallowed here⟩
    | cancelling => simp at pollUnwinds
    | _ =>
      cases stop with
      | working => exact absurd there unstopped
      | cancelling => simp at stopUnwinds
      | _ => simp [Task.done] at gathers

/-- Once the gateway has been asked to stop, however the turns of `run` and its tasks come, there are at most
    nine of them, and where none is left `run` has ended; unless the poll loop has swallowed its
    cancellation and is at work. -/
theorem stop_ends {actions : List Action} {s : State} (reached : run step {} actions = some s) (asked : s.stopping = true)
    {turns : List Action} {t : State} (turning : ∀ a ∈ turns, Turn a) (later : run step s turns = some t) :
    turns.length ≤ 9 ∧ ((∀ a, Turn a → a ≠ .pollFails → step t a = none) →
      (∃ outcome, t.phase = .ended outcome) ∨ t.poll = some .working ∧ .swallowed ∈ actions) := by
  constructor
  · have left := run_rest turning later
    have most := (run_stands reached).rest
    omega
  · intro still
    have whole : run step {} (actions ++ turns) = some t := by
      rw [run_append,reached]
      exact later
    refine (stuck whole (run_stopping later asked) still).imp_right fun ⟨working,swallowed⟩ => ⟨working,?_⟩
    rcases List.mem_append.mp swallowed with before | now
    · exact before
    · exact absurd rfl (turning _ now).2.2.2

/-- The poll loop fails before the wait is over although the gateway has been asked to stop, and the
    gateway is cancelled in the wait. -/
theorem run_returns_iff_failing :
    let started : List Action := [.completes,.completes,.completes,.completes]
    let failing := started ++ [.stop,.stopSeen,.pollFails,.wakes,.gathers,.completes]
    let struck := started ++ [.cancel,.completes]
    (∃ s, run step {} failing = some s ∧ s.phase = .ended .raised ∧ s.idle = true ∧ ¬ Along step Smooth {} failing) ∧
      ∃ s, run step {} struck = some s ∧ s.phase = .ended .cancelled ∧ s.idle = false ∧ s.linkClosed = s.poll.isSome := by
  intro started failing struck
  constructor
  · obtain ⟨s,reached,ended⟩ := Option.map_eq_some_iff.mp
      (by decide : (run step {} failing).map State.phase = some (.ended .raised))
    have outcome := run_returns_iff reached ended
    refine ⟨s,reached,ended,outcome.2.2.2 ?_,fun smooth => ?_⟩
    · refine along_iff.mpr fun earlier a later t split _ cancelled => ?_
      subst cancelled
      have absent : .cancel ∉ failing := by decide
      exact absurd (split ▸ by simp) absent
    · cases outcome.1.mpr smooth
  · obtain ⟨s,reached,last⟩ := Option.map_eq_some_iff.mp
      (by decide : (run step {} struck).map (fun s => (s.phase,s.idle)) = some (.ended .cancelled,false))
    simp only [Prod.mk.injEq] at last
    exact ⟨s,reached,last.1,last.2,(run_returns_iff reached last.1).2.2.1⟩

/-- The gateway is asked to stop while it is priming. -/
theorem stop_ends_priming :
    let turns : List Action := [.completes,.completes,.stopSeen,.wakes,.pollUnwinds,.gathers,.completes]
    ∃ s t, run step {} [.completes,.completes,.stop] = some s ∧ run step s turns = some t ∧
      turns.length ≤ 9 ∧ t.phase = .ended .returned := by
  intro turns
  obtain ⟨s,reached,asked⟩ := Option.map_eq_some_iff.mp
    (by decide : (run step {} [.completes,.completes,.stop]).map State.stopping = some true)
  obtain ⟨t,whole,ended⟩ := Option.map_eq_some_iff.mp
    (by decide : (run step {} ([.completes,.completes,.stop] ++ turns)).map State.phase = some (.ended .returned))
  rw [run_append,reached,Option.bind_some] at whole
  exact ⟨s,t,reached,whole,(stop_ends reached asked (by simp [turns,Turn]) whole).1,ended⟩

end MockPlant.GatewayRun
