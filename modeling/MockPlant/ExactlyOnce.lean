import MockPlant.Attribution

/-!
Exactly-once execution. While the gateway issues one command after another and
nothing is lost once a block has gone out, the commands that the PLC has executed
are those written, short of the one in the block, and the number in the block is
the acknowledged one whenever no invoke is under way.
-/
namespace MockPlant.ExactlyOnce
open MockPlant.Contract MockPlant.Plc MockPlant.ScanCommands MockPlant.Handshake MockPlant.Masters MockPlant.Mailbox
open MockPlant.Attribution MockPlant.Runs

/-! ### Commands and executions -/

def addCommand (commands : List (ℕ × ℕ × ℕ)) : Event → List (ℕ × ℕ × ℕ)
  | .wrote (.call i) code seq =>
    if commands.getLast?.map (·.1) = some i then commands else commands ++ [(i,code,seq)]
  | _ => commands

/-- The invokes that have written their block, with its code and number; a block that
    is served again counts once. -/
def commands (trace : List Event) : List (ℕ × ℕ × ℕ) := trace.foldl addCommand []

def executionOf : Event → Option Execution
  | .executed code seq result => some ⟨code,seq,result⟩
  | _ => none

def executions (trace : List Event) : List Execution := trace.filterMap executionOf

theorem commands_concat (trace : List Event) (event : Event) :
    commands (trace ++ [event]) = addCommand (commands trace) event := by
  simp [commands]

theorem executions_concat (trace : List Event) (event : Event) :
    executions (trace ++ [event]) = executions trace ++ (executionOf event).toList := by
  cases found : executionOf event <;> simp [executions,found]

/-- A served command is among the executed ones. -/
theorem execution_of_served {trace : List Event} {author : Author} {code n : ℕ} {r : AckResult}
    (served : Served trace author code n r) : ⟨code,n,r⟩ ∈ executions trace := by
  obtain ⟨earlier,later,rfl⟩ := served
  exact List.mem_filterMap.mpr ⟨.executed code n r,by simp,rfl⟩

/-- The command in the block that the next scan executes, if any. -/
def owed (r : Regs) : List (ℕ × ℕ) := if r.seq = r.ackSeq then [] else [(r.code,r.seq)]

/-! ### The regime -/

/-- One command after another, no other master, and nothing fails but an invoke's
    first ack read. -/
def Reliable (v : View) : Action → Prop
  | .call _ _ => ∀ call ∈ v.calls, ended call.phase
  | .fail i => ∃ call ∈ v.calls[i]?, call.phase = .reading
  | .timeout _ | .rogueRead _ | .rogueWrite _ => False
  | _ => True

instance (v : View) : ∀ a : Action, Decidable (Reliable v a)
  | .call _ _ => inferInstanceAs (Decidable (∀ call ∈ v.calls, ended call.phase))
  | .fail i => inferInstanceAs (Decidable (∃ call ∈ v.calls[i]?, call.phase = .reading))
  | .timeout _ | .rogueRead _ | .rogueWrite _ => inferInstanceAs (Decidable False)
  | .readAck _ | .send _ | .sendReturns _ | .poll _ | .scan _ | .write _ _ _ => inferInstanceAs (Decidable True)

theorem Reliable.sequential {v : View} {a : Action} (reliable : Reliable v a) : Sequential v a := by
  cases a with
  | call => exact reliable
  | _ => trivial

theorem Reliable.undisputed {v : View} {a : Action} (reliable : Reliable v a) : Undisputed v a := by
  cases a with
  | rogueWrite => exact reliable.elim
  | _ => exact undisputed_of_none rfl

/-! ### The invariant -/

/-- The PLC has acknowledged the number in the block, and the gateway knows no other. -/
def Quiet (v : View) : Prop := v.regs.seq = v.regs.ackSeq ∧ (v.issued = none ∨ v.issued = some v.regs.ackSeq)

/-- What holds while an invoke is in a phase. Before its block goes out the plant is
    quiet; afterwards the block is its own. An invoke from `base` on ends with a
    result, or without having written when `failures` are allowed. -/
def Stage (base : ℕ) (failures : Prop) (trace : List Event) (v : View) (i : ℕ) (code : CmdCode) : Phase → Prop
  | .reading => Quiet v ∧ ∀ entry ∈ commands trace, entry.1 ≠ i
  | .writing seq false => Quiet v ∧ seq = nextSeq v.regs.ackSeq ∧ ∀ entry ∈ commands trace, entry.1 ≠ i
  | .writing seq true =>
    v.regs.code = code.toNat ∧ v.regs.seq = seq ∧ (commands trace).getLast? = some (i,code.toNat,seq)
  | .polling seq => v.regs.seq = seq ∧ v.issued = some seq
  | .done outcome => base ≤ i → (∃ r, outcome = .result r) ∨ outcome = .modbusException ∧ failures

/-- Every command written is executed or still in the block, and the invoke under way
    is at its stage. -/
structure Exact (base : ℕ) (failures : Prop) (trace : List Event) (v : View) : Prop where
  within : base ≤ v.calls.length
  last : LastActive v.calls
  old : ∀ (i : ℕ) (call : Call), i < base → v.calls[i]? = some call → ended call.phase
  authors : ∀ entry ∈ commands trace, base ≤ entry.1 ∧ entry.1 < v.calls.length
  ordered : ((commands trace).map (·.1)).Pairwise (· < ·)
  balance : (commands trace).map (·.2) = (executions trace).map (fun e => (e.code,e.seq)) ++ owed v.regs
  quiet : (∀ call ∈ v.calls, ended call.phase) → Quiet v
  stage : ∀ (i : ℕ) (call : Call), v.calls[i]? = some call →
    Stage base failures trace v i call.code call.phase

theorem stage_of_ended {base i : ℕ} {failures : Prop} {code : CmdCode} {trace trace' : List Event} {v v' : View}
    {phase : Phase} (done : ended phase) (stage : Stage base failures trace v i code phase) :
    Stage base failures trace' v' i code phase := by
  cases phase with
  | done outcome => exact stage
  | _ => cases done

theorem exact_start {v : View} (failures : Prop) (idle : ∀ call ∈ v.calls, ended call.phase) (quiet : Quiet v) :
    Exact v.calls.length failures [] v := by
  have done {i : ℕ} {call : Call} (there : v.calls[i]? = some call) := idle call (List.mem_of_getElem? there)
  refine ⟨le_rfl,?_,fun i call _ there => done there,by simp [commands],by simp [commands],?_,fun _ => quiet,?_⟩
  · intro i call there running
    have := done there
    rw [running] at this
    cases this
  · simp [commands,executions,owed,quiet.1]
  · intro i call there
    have bound := (List.getElem?_eq_some_iff.mp there).1
    obtain ⟨outcome,phase⟩ := ended_iff.mp (done there)
    rw [phase]
    intro new
    omega

section
variable {base : ℕ} {failures : Prop} {earlier : List Event} {v v' : View} (exact : Exact base failures earlier v)
include exact

/-- Only an invoke from `base` on can be under way. -/
theorem Exact.new {i : ℕ} {call : Call} (found : v.calls[i]? = some call) (active : ended call.phase = false) :
    base ≤ i := by
  by_contra old
  have done := exact.old i call (not_le.mp old) found
  rw [active] at done
  cases done

/-- A move of the invoke under way: the others have ended and stay as they are. -/
theorem Exact.setCall {later : List Event} {i : ℕ} {call : Call} (found : v.calls[i]? = some call)
    (active : ended call.phase = false) {phase : Phase} (calls : v'.calls = v.calls.set i { call with phase })
    (authors : ∀ entry ∈ commands later, base ≤ entry.1 ∧ entry.1 < v.calls.length)
    (ordered : ((commands later).map (·.1)).Pairwise (· < ·))
    (balance : (commands later).map (·.2) = (executions later).map (fun e => (e.code,e.seq)) ++ owed v'.regs)
    (quiet : ended phase → Quiet v') (stage : Stage base failures later v' i call.code phase) :
    Exact base failures later v' := by
  refine ⟨?_,?_,?_,?_,ordered,balance,?_,?_⟩
  · rw [calls,List.length_set]
    exact exact.within
  · rw [calls]
    exact exact.last.setCall found active phase
  · intro j other old there
    rw [calls] at there
    rcases getElem?_setCall found there with ⟨rfl,_⟩ | ⟨_,there⟩
    · exact absurd (exact.new found active) (not_le.mpr old)
    · exact exact.old j other old there
  · rw [calls,List.length_set]
    exact authors
  · intro idle
    rw [calls] at idle
    have bound := (List.getElem?_eq_some_iff.mp found).1
    exact quiet (idle { call with phase } (List.mem_of_getElem? (List.getElem?_set_self bound)))
  · intro j other there
    rw [calls] at there
    rcases getElem?_setCall found there with ⟨rfl,rfl⟩ | ⟨different,there⟩
    · exact stage
    · have done : ended other.phase := by
        cases running : ended other.phase with
        | true => rfl
        | false =>
          have one := exact.last i call found active
          have two := exact.last j other there running
          omega
      exact stage_of_ended done (exact.stage j other there)

/-- A move of the invoke under way that writes and executes nothing. -/
theorem Exact.silent {i : ℕ} {call : Call} (found : v.calls[i]? = some call) (active : ended call.phase = false)
    {phase : Phase} (calls : v'.calls = v.calls.set i { call with phase }) (regs : v'.regs = v.regs)
    (quiet : ended phase → Quiet v') (stage : Stage base failures earlier v' i call.code phase) :
    Exact base failures earlier v' := by
  refine exact.setCall found active calls exact.authors exact.ordered ?_ quiet stage
  rw [regs]
  exact exact.balance

theorem Exact.call (idle : ∀ call ∈ v.calls, ended call.phase) (code : CmdCode) (arg0 : ℤ) :
    Exact base failures earlier { v with calls := v.calls ++ [{ code, arg0, phase := .reading }] } := by
  have quiet := exact.quiet idle
  have within := exact.within
  refine ⟨?_,exact.last.moves (a := .call code arg0) idle (.call code arg0),?_,?_,exact.ordered,exact.balance,
    fun _ => quiet,?_⟩
  · rw [List.length_append]
    omega
  · intro i call old there
    rw [List.getElem?_append_left (by omega)] at there
    exact idle call (List.mem_of_getElem? there)
  · intro entry member
    obtain ⟨low,high⟩ := exact.authors entry member
    rw [List.length_append]
    omega
  · intro i call there
    rcases getElem?_concat.mp there with earlier | ⟨rfl,rfl⟩
    · exact stage_of_ended (idle call (List.mem_of_getElem? earlier)) (exact.stage i call earlier)
    · refine ⟨quiet,fun entry member same => ?_⟩
      have := exact.authors entry member
      omega

/-- The first time its block is served, the invoke's command is the one owed. -/
theorem Exact.send_first {i : ℕ} {call : Call} {seq : ℕ} (found : v.calls[i]? = some call)
    (phase : call.phase = .writing seq false) :
    Exact base failures (earlier ++ [.wrote (.call i) call.code.toNat seq])
      ((v.setCall i call (.writing seq true)).writeBlock call.code seq) := by
  have stage := exact.stage i call found
  rw [phase] at stage
  obtain ⟨⟨same,_⟩,number,unwritten⟩ := stage
  have new : commands (earlier ++ [.wrote (.call i) call.code.toNat seq]) =
      commands earlier ++ [(i,call.code.toNat,seq)] := by
    rw [commands_concat]
    refine if_neg fun lastAuthor => ?_
    obtain ⟨entry,lastEntry,author⟩ := Option.map_eq_some_iff.mp lastAuthor
    exact unwritten entry (List.mem_of_getLast? lastEntry) author
  have inside := (List.getElem?_eq_some_iff.mp found).1
  have fresh : seq ≠ v.regs.ackSeq := number ▸ nextSeq_ne v.regs.ackSeq
  refine exact.setCall found (by rw [phase]; rfl) rfl ?_ ?_ ?_ (fun done => by cases done) ⟨rfl,rfl,?_⟩
  · rw [new]
    intro entry member
    rcases List.mem_append.mp member with old | own
    · exact exact.authors entry old
    · rw [List.mem_singleton.mp own]
      exact ⟨exact.new found (by rw [phase]; rfl),inside⟩
  · rw [new,List.map_append]
    refine List.pairwise_append.mpr ⟨exact.ordered,List.pairwise_singleton _ _,?_⟩
    intro author member own here
    obtain ⟨entry,listed,rfl⟩ := List.mem_map.mp member
    have last := exact.last i call found (by rw [phase]; rfl)
    have bound := (exact.authors entry listed).2
    have different := unwritten entry listed
    simp only [List.map_cons,List.map_nil,List.mem_singleton] at here
    omega
  · rw [new,List.map_append,exact.balance,executions_concat]
    simp [executionOf,owed,same,fresh,View.writeBlock,View.setCall]
  · rw [new]
    simp

/-- A block that is served again is the one already there. -/
theorem Exact.send_again {i : ℕ} {call : Call} {seq : ℕ} (found : v.calls[i]? = some call)
    (phase : call.phase = .writing seq true) :
    Exact base failures (earlier ++ [.wrote (.call i) call.code.toNat seq])
      ((v.setCall i call (.writing seq true)).writeBlock call.code seq) := by
  have stage := exact.stage i call found
  rw [phase] at stage
  obtain ⟨code,number,lastEntry⟩ := stage
  have same : commands (earlier ++ [.wrote (.call i) call.code.toNat seq]) = commands earlier := by
    rw [commands_concat]
    exact if_pos (by rw [lastEntry]; rfl)
  refine exact.setCall found (by rw [phase]; rfl) rfl ?_ ?_ ?_ (fun done => by cases done) ⟨rfl,rfl,?_⟩
  · rw [same]
    exact exact.authors
  · rw [same]
    exact exact.ordered
  · have unchanged : ((v.setCall i call (.writing seq true)).writeBlock call.code seq).regs = v.regs := by
      show { v.regs with code := call.code.toNat, seq := seq } = v.regs
      rw [← code,← number]
    rw [same,exact.balance,executions_concat,unchanged]
    simp [executionOf]
  · rw [same,lastEntry]

theorem Exact.execute (pending : v.regs.seq ≠ v.regs.ackSeq) (result : AckResult) :
    Exact base failures (earlier ++ [.executed v.regs.code v.regs.seq result])
      { v with regs := { v.regs with ackSeq := v.regs.seq, ackResult := result.toNat } } := by
  have same : commands (earlier ++ [.executed v.regs.code v.regs.seq result]) = commands earlier := commands_concat _ _
  refine ⟨exact.within,exact.last,exact.old,?_,?_,?_,fun idle => absurd (exact.quiet idle).1 pending,?_⟩
  · rw [same]
    exact exact.authors
  · rw [same]
    exact exact.ordered
  · rw [same,exact.balance,executions_concat]
    simp [executionOf,owed,pending]
  · intro i call there
    have stage := exact.stage i call there
    cases phase : call.phase with
    | reading =>
      rw [phase] at stage
      exact absurd stage.1.1 pending
    | writing seq applied =>
      rw [phase] at stage
      cases applied with
      | false => exact absurd stage.1.1 pending
      | true => exact ⟨stage.1,stage.2.1,by rw [same]; exact stage.2.2⟩
    | polling seq =>
      rw [phase] at stage
      exact stage
    | done outcome =>
      rw [phase] at stage
      exact stage_of_ended rfl stage

end

theorem Exact.moves {base : ℕ} {failures : Prop} {earlier : List Event} {v v' : View} {a : Action}
    {events : List Event} (exact : Exact base failures earlier v) (attributed : Attributed base earlier v.regs v.calls)
    (reliable : Reliable v a) (fails : ∀ i, a = .fail i → failures) (moves : Moves v a events v') :
    Exact base failures (earlier ++ events) v' := by
  cases moves with
  | call code arg0 =>
    rw [List.append_nil]
    exact exact.call reliable code arg0
  | @readAck i call found phase =>
    rw [List.append_nil]
    have stage := exact.stage i call found
    rw [phase] at stage
    obtain ⟨⟨same,issued⟩,unwritten⟩ := stage
    rcases afterRead_cases v.issued v.regs.ackSeq with ⟨known,after⟩ | ⟨expected,other,different,_⟩
    · rw [after]
      exact exact.silent found (by rw [phase]; rfl) rfl rfl (fun done => by cases done)
        ⟨⟨same,known⟩,rfl,unwritten⟩
    · rw [other] at issued
      rcases issued with none | some
      · cases none
      · exact absurd (Option.some.inj some).symm different
  | @send i call seq applied found phase =>
    cases applied with
    | false => exact exact.send_first found phase
    | true => exact exact.send_again found phase
  | @sendReturns i call seq found phase =>
    rw [List.append_nil]
    have stage := exact.stage i call found
    rw [phase] at stage
    exact exact.silent found (by rw [phase]; rfl) rfl rfl (fun done => by cases done)
      ⟨stage.2.1,rfl⟩
  | @poll i call seq found phase =>
    rw [List.append_nil]
    have stage := exact.stage i call found
    rw [phase] at stage
    obtain ⟨number,issued⟩ := stage
    have settled (acked : v.regs.ackSeq = seq) (phase : Phase) : Quiet (v.setCall i call phase) :=
      ⟨number.trans acked.symm,.inr (by rw [View.setCall,issued,acked])⟩
    have waits : waiting call.phase = some seq := by rw [phase]; rfl
    rcases afterPoll_cases seq v.regs.ackSeq v.regs.ackResult with ⟨_,after⟩ | ⟨acked,r,_,after⟩ | ⟨acked,unknown,_⟩
    · rw [after]
      exact exact.silent found (by rw [phase]; rfl) rfl rfl (fun done => by cases done)
        ⟨number,issued⟩
    · rw [after]
      exact exact.silent found (by rw [phase]; rfl) rfl rfl (fun _ => settled acked _) (fun _ => .inl ⟨r,rfl⟩)
    · -- An acknowledgement of its own command carries a known result.
      obtain ⟨result,_,register⟩ := (attributed.awaiting i call seq found waits).answer acked
      have register : v.regs.ackResult = result.toNat := register
      rw [register,AckResult.ofNat?_toNat] at unknown
      cases unknown
  | @fail i call found _ =>
    rw [List.append_nil]
    obtain ⟨other,there,phase⟩ := reliable
    cases found.symm.trans there
    have stage := exact.stage i call found
    rw [phase] at stage
    exact exact.silent found (by rw [phase]; rfl) rfl rfl (fun _ => stage.1) (fun _ => .inr ⟨rfl,fails i rfl⟩)
  | timeout => exact reliable.elim
  | rogueRead => exact reliable.elim
  | rogueWrite => exact reliable.elim
  | idle | write =>
    rw [List.append_nil]
    exact exact
  | execute dt pending result => exact exact.execute pending result

/-- The next number is never the one acknowledged. -/
theorem Exact.unacknowledged {base : ℕ} {failures : Prop} {earlier : List Event} {v : View}
    (exact : Exact base failures earlier v) (a : Action) : Unacknowledged v a := by
  intro seq sent
  obtain ⟨i,code,arg0,rfl,found⟩ := firstSend_eq_some sent
  obtain ⟨_,number,_⟩ := exact.stage i _ found
  rw [number]
  exact (nextSeq_ne _).symm

/-! ### Runs -/

/-- A reliable run from a quiet plant keeps the invariant, and its results are of the
    invokes' own commands. -/
theorem run_exact {plant : Plant} {w₀ w : World} {v₀ : View} (ready : Ready plant w₀ v₀)
    (idle : ∀ call ∈ v₀.calls, ended call.phase) (quiet : Quiet v₀) {actions : List Action} {failures : Prop}
    (spares : ∀ a ∈ actions, Spares plant a) (reliable : Along (step plant) (Seen plant Reliable) w₀ actions)
    (fails : ∀ a ∈ actions, ∀ i, a = .fail i → failures) (reached : run (step plant) w₀ actions = some w) :
    ∃ v, Ready plant w v ∧ Exact v₀.calls.length failures (trace plant w₀ actions) v ∧
      Attributed v₀.calls.length (trace plant w₀ actions) v.regs v.calls := by
  refine run_moves (I := fun trace v => Exact v₀.calls.length failures trace v ∧
    Attributed v₀.calls.length trace v.regs v.calls) ready
    ⟨exact_start failures idle quiet,attributed_start idle v₀.regs⟩ ?_ spares (Seen.and reliable (seen_of_forall fails w₀)) reached
  rintro earlier v a events v' ⟨exact,attributed⟩ ⟨reliable,fails⟩ moves
  exact ⟨exact.moves attributed reliable fails moves,attributed.moves (exact.unacknowledged a) (exact.last.unshared a)
    reliable.undisputed moves⟩

theorem quiet_of_settled {plant : Plant} {w : World} {v : View} {r : Regs} (ready : Ready plant w v)
    (before : regs plant.plc w.plc = some r) (settled : r.seq = r.ackSeq)
    (issued : w.issued = none ∨ w.issued = some r.ackSeq) : Quiet v := by
  obtain ⟨seen,same,_⟩ := view_eq_some.mp ready.seen
  cases before.symm.trans seen
  exact ⟨settled,by rwa [← same]⟩

/-- In every reliable run from a settled plant no invoke is contended; the commands
    executed are those written, each once and in order, short of one that is still in
    the block; every returned result is of the invoke's own command; and between
    invokes the number in the block is the acknowledged one. -/
theorem executed_exactly_once {plant : Plant} {w₀ w : World} {r₀ : Regs} {actions : List Action}
    (mapped : BlocksMapped plant.plc w₀.plc) (fresh : w₀.calls = []) (before : regs plant.plc w₀.plc = some r₀)
    (settled : r₀.seq = r₀.ackSeq) (issued : w₀.issued = none ∨ w₀.issued = some r₀.ackSeq)
    (spares : ∀ a ∈ actions, Spares plant a) (reliable : Along (step plant) (Seen plant Reliable) w₀ actions)
    (reached : run (step plant) w₀ actions = some w) :
    (∀ call ∈ w.calls, ∀ current expected, call.phase ≠ .done (.contended current expected)) ∧
    (∃ r, regs plant.plc w.plc = some r ∧ ((commands (trace plant w₀ actions)).map (·.1)).Pairwise (· < ·) ∧
      (commands (trace plant w₀ actions)).map (·.2) =
        (executions (trace plant w₀ actions)).map (fun e => (e.code,e.seq)) ++ owed r ∧
      ((∀ call ∈ w.calls, ended call.phase) → r.seq = r.ackSeq)) ∧
    ∀ (i : ℕ) (call : Call) (r : AckResult), w.calls[i]? = some call → call.phase = .done (.result r) →
      ∃ n, Served (trace plant w₀ actions) (.call i) call.code.toNat n r := by
  obtain ⟨v₀,ready⟩ := ready_exists mapped
  have none : v₀.calls = [] := (view_eq_some.mp ready.seen).2.2.1.symm.trans fresh
  have quiet := quiet_of_settled ready before settled issued
  obtain ⟨v,ready',exact,attributed⟩ := run_exact ready (by simp [none]) quiet spares reliable
    (fun _ _ _ _ => True.intro) reached
  obtain ⟨seen,_,calls,_⟩ := view_eq_some.mp ready'.seen
  rw [none] at exact attributed
  rw [calls]
  refine ⟨?_,⟨v.regs,seen,exact.ordered,exact.balance,fun idle => (exact.quiet idle).1⟩,?_⟩
  · intro call member current expected contended
    obtain ⟨i,there⟩ := List.mem_iff_getElem?.mp member
    have stage := exact.stage i call there
    rw [contended] at stage
    rcases stage (Nat.zero_le i) with ⟨r,result⟩ | ⟨failed,_⟩
    · cases result
    · cases failed
  · exact fun i call r => attributed.served i call r (Nat.zero_le i)

theorem shipped_executed_exactly_once :
    let actions := [.call .start 0,.readAck 0,.send 0,.scan (1 / 100),.send 0,.sendReturns 0,.poll 0,.call .stop 0,.fail 1,
      .write 16 10 [1500],.call .stop 0,.readAck 2,.send 2,.sendReturns 2,.poll 2,.scan (1 / 100),.poll 2]
    ∃ w, run (step shipped) shippedWorld actions = some w ∧
      (∀ call ∈ w.calls, ∀ current expected, call.phase ≠ .done (.contended current expected)) ∧
      (∃ r, regs shipped.plc w.plc = some r ∧
        ((commands (trace shipped shippedWorld actions)).map (·.1)).Pairwise (· < ·) ∧
        (commands (trace shipped shippedWorld actions)).map (·.2) =
          (executions (trace shipped shippedWorld actions)).map (fun e => (e.code,e.seq)) ++ owed r ∧
        ((∀ call ∈ w.calls, ended call.phase) → r.seq = r.ackSeq)) ∧
      ∀ (i : ℕ) (call : Call) (r : AckResult), w.calls[i]? = some call → call.phase = .done (.result r) →
        ∃ n, Served (trace shipped shippedWorld actions) (.call i) call.code.toNat n r := by
  intro actions
  obtain ⟨w,reached⟩ := Option.isSome_iff_exists.mp
    (by decide +kernel : (run (step shipped) shippedWorld actions).isSome)
  have before : regs shipped.plc shippedWorld.plc = some ⟨0,0,0,0⟩ := by decide +kernel
  exact ⟨w,reached,executed_exactly_once shippedWorld_mapped rfl before rfl (.inl rfl) (by decide +kernel)
    (by decide +kernel) reached⟩

end MockPlant.ExactlyOnce
