import MockPlant.Handshake
import MockPlant.Mailbox

/-!
A PLC and its masters: one gateway, whose invokes may overlap, and another master.
A step is one Modbus transaction as the PLC serves it, a scan, or a step of a
master's own. Seen through the registers of the two blocks, every step is one of a
few moves, whatever else the PLC's memory and machines hold.
-/
namespace MockPlant.Masters
open MockPlant.Python MockPlant.Contract MockPlant.ModbusServer MockPlant.Plc MockPlant.ScanCommands MockPlant.Handshake
open MockPlant.Runs

/-! ### Worlds -/

/-- The PLC, the gateway's `_issued` and its invokes in the order they started, and
    the blocks that the other master has numbered but not written yet. -/
structure World where
  plc : PlcState
  issued : Option ℕ := none
  calls : List Call := []
  rogues : List (CmdCode × ℕ) := []

inductive Action
  | call (code : CmdCode) (arg0 : ℤ)
  | readAck (i : ℕ)
  | send (i : ℕ)
  | sendReturns (i : ℕ)
  | poll (i : ℕ)
  | fail (i : ℕ)
  | timeout (i : ℕ)
  | rogueRead (code : CmdCode)
  | rogueWrite (k : ℕ)
  | scan (dt : ℚ)
  | write (funcCode : ℕ) (address : ℤ) (values : List ℕ)
deriving DecidableEq

/-- A write request that the PLC has served holds the link until its answer is back. -/
def Phase.holdsLink : Phase → Bool
  | .writing _ applied => applied
  | _ => false

/-- No other invoke holds the link. -/
def World.linkFree (w : World) (i : ℕ) : Bool :=
  w.calls.zipIdx.all (fun entry => entry.2 = i || !Phase.holdsLink entry.1.phase)

/-- Invoke `i`, when the link is free for it. -/
def World.callAt (w : World) (i : ℕ) : Option Call := if w.linkFree i then w.calls[i]? else none

def World.setCall (w : World) (i : ℕ) (call : Call) (phase : Phase) : World :=
  { w with calls := w.calls.set i { call with phase } }

/-- One field of the ack block, as a read of the block returns it. -/
def readAckField (plant : Plant) (s : PlcState) (name : String) : Option ℕ := do
  let fields ← (readBlock s plant.plc.contract.ackBlock).toOption
  fields name

def step (plant : Plant) (w : World) : Action → Option World
  | .call code arg0 => some { w with calls := w.calls ++ [{ code, arg0, phase := .reading }] }
  | .readAck i => do
    let call ← w.callAt i
    match call.phase with
    | .reading => do
      let current ← readAckField plant w.plc "ack_seq"
      let (issued,phase) := afterRead w.issued current
      some { w.setCall i call phase with issued }
    | _ => none
  | .send i => do
    let call ← w.callAt i
    match call.phase with
    | .writing seq _ => do
      let s ← writeBlock w.plc plant.plc.contract.commandBlock (commandFields call.code call.arg0 seq)
      some { w.setCall i call (.writing seq true) with plc := s }
    | _ => none
  | .sendReturns i => do
    let call ← w.calls[i]?
    match call.phase with
    | .writing seq true => some { w.setCall i call (.polling seq) with issued := some seq }
    | _ => none
  | .poll i => do
    let call ← w.callAt i
    match call.phase with
    | .polling seq => do
      let ackSeq ← readAckField plant w.plc "ack_seq"
      let ackResult ← readAckField plant w.plc "ack_result"
      some (w.setCall i call (afterPoll seq ackSeq ackResult))
    | _ => none
  | .fail i => do
    let call ← w.calls[i]?
    match call.phase with
    | .done _ => none
    | _ => some (w.setCall i call (.done .modbusException))
  | .timeout i => do
    let call ← w.calls[i]?
    match call.phase with
    | .polling _ => some (w.setCall i call (.done .timeout))
    | _ => none
  | .rogueRead code => do
    let current ← readAckField plant w.plc "ack_seq"
    some { w with rogues := w.rogues ++ [(code,rogueSeq current)] }
  | .rogueWrite k => do
    let (code,seq) ← w.rogues[k]?
    let s ← writeBlock w.plc plant.plc.contract.commandBlock (commandFields code 0 seq)
    some { w with plc := s, rogues := w.rogues.eraseIdx k }
  | .scan dt => do
    let s ← (scan plant.plc w.plc dt).toOption
    some { w with plc := s }
  | .write funcCode address values => some { w with plc := request w.plc funcCode address values }

/-! ### Events -/

/-- Who wrote a command block. -/
inductive Author
  | call (i : ℕ)
  | rogue
deriving DecidableEq, Repr

abbrev Event := Mailbox.Event Author ℕ ℕ AckResult

/-- The command block that a step writes, or the command that it executes. -/
def observe (plant : Plant) (w : World) : Action → List Event
  | .send i =>
    match w.calls[i]? with
    | some ⟨code,_,.writing seq _⟩ => [.wrote (.call i) code.toNat seq]
    | _ => []
  | .rogueWrite k =>
    match w.rogues[k]? with
    | some (code,seq) => [.wrote .rogue code.toNat seq]
    | none => []
  | .scan _ =>
    match executes plant.plc w.plc with
    | some e => [.executed e.code e.seq e.result]
    | none => []
  | _ => []

/-- What happens at the command block over a run. -/
def trace (plant : Plant) (w : World) (actions : List Action) : List Event :=
  log (step plant) (fun w a _ => observe plant w a) w actions

/-! ### Moves -/

/-- What the masters' protocol sees of a world. -/
structure View where
  regs : Regs
  issued : Option ℕ
  calls : List Call
  rogues : List (CmdCode × ℕ)

def View.setCall (v : View) (i : ℕ) (call : Call) (phase : Phase) : View :=
  { v with calls := v.calls.set i { call with phase } }

/-- A command block with a code and a number. -/
def View.writeBlock (v : View) (code : CmdCode) (seq : ℕ) : View :=
  { v with regs := { v.regs with code := code.toNat, seq := seq } }

def view (plant : Plant) (w : World) : Option View :=
  (regs plant.plc w.plc).map (fun regs => { regs, issued := w.issued, calls := w.calls, rogues := w.rogues })

/-- The protocol's moves, with what happens at the command block. -/
inductive Moves (v : View) : Action → List Event → View → Prop
  | call (code : CmdCode) (arg0 : ℤ) :
      Moves v (.call code arg0) [] { v with calls := v.calls ++ [{ code, arg0, phase := .reading }] }
  | readAck {i : ℕ} {call : Call} (found : v.calls[i]? = some call) (phase : call.phase = .reading) :
      Moves v (.readAck i) []
        { v.setCall i call (afterRead v.issued v.regs.ackSeq).2 with issued := (afterRead v.issued v.regs.ackSeq).1 }
  | send {i : ℕ} {call : Call} {seq : ℕ} {applied : Bool} (found : v.calls[i]? = some call)
      (phase : call.phase = .writing seq applied) :
      Moves v (.send i) [.wrote (.call i) call.code.toNat seq]
        ((v.setCall i call (.writing seq true)).writeBlock call.code seq)
  | sendReturns {i : ℕ} {call : Call} {seq : ℕ} (found : v.calls[i]? = some call)
      (phase : call.phase = .writing seq true) :
      Moves v (.sendReturns i) [] { v.setCall i call (.polling seq) with issued := some seq }
  | poll {i : ℕ} {call : Call} {seq : ℕ} (found : v.calls[i]? = some call) (phase : call.phase = .polling seq) :
      Moves v (.poll i) [] (v.setCall i call (afterPoll seq v.regs.ackSeq v.regs.ackResult))
  | fail {i : ℕ} {call : Call} (found : v.calls[i]? = some call) (phase : ∀ outcome, call.phase ≠ .done outcome) :
      Moves v (.fail i) [] (v.setCall i call (.done .modbusException))
  | timeout {i : ℕ} {call : Call} {seq : ℕ} (found : v.calls[i]? = some call) (phase : call.phase = .polling seq) :
      Moves v (.timeout i) [] (v.setCall i call (.done .timeout))
  | rogueRead (code : CmdCode) :
      Moves v (.rogueRead code) [] { v with rogues := v.rogues ++ [(code,rogueSeq v.regs.ackSeq)] }
  | rogueWrite {k : ℕ} {code : CmdCode} {seq : ℕ} (found : v.rogues[k]? = some (code,seq)) :
      Moves v (.rogueWrite k) [.wrote .rogue code.toNat seq]
        ({ v with rogues := v.rogues.eraseIdx k }.writeBlock code seq)
  | idle (dt : ℚ) (same : v.regs.seq = v.regs.ackSeq) : Moves v (.scan dt) [] v
  | execute (dt : ℚ) (pending : v.regs.seq ≠ v.regs.ackSeq) (result : AckResult) :
      Moves v (.scan dt) [.executed v.regs.code v.regs.seq result]
        { v with regs := { v.regs with ackSeq := v.regs.seq, ackResult := result.toNat } }
  | write (funcCode : ℕ) (address : ℤ) (values : List ℕ) : Moves v (.write funcCode address values) [] v

/-- An action that writes no register of either block by a plain write request. -/
def Spares (plant : Plant) : Action → Prop
  | .write funcCode address values => funcTable funcCode = some .holding →
    Apart (Span.mk address (address + values.length)) plant.plc.contract.commandBlock.span ∧
      Apart (Span.mk address (address + values.length)) plant.plc.contract.ackBlock.span
  | _ => True

instance (plant : Plant) : ∀ a : Action, Decidable (Spares plant a)
  | .write _ _ _ => inferInstanceAs (Decidable (_ → Apart _ _ ∧ Apart _ _))
  | .call _ _ | .readAck _ | .send _ | .sendReturns _ | .poll _ | .fail _ | .timeout _ | .rogueRead _ | .rogueWrite _
  | .scan _ => inferInstanceAs (Decidable True)

/-- A world whose blocks are mapped, with its view. -/
structure Ready (plant : Plant) (w : World) (v : View) : Prop where
  mapped : BlocksMapped plant.plc w.plc
  seen : view plant w = some v

theorem view_eq_some {plant : Plant} {w : World} {v : View} :
    view plant w = some v ↔
      regs plant.plc w.plc = some v.regs ∧ w.issued = v.issued ∧ w.calls = v.calls ∧ w.rogues = v.rogues := by
  cases v with
  | mk r issued calls rogues =>
    simp only [view,Option.map_eq_some_iff,View.mk.injEq]
    constructor
    · rintro ⟨r',found,rfl,rfl,rfl,rfl⟩
      exact ⟨found,rfl,rfl,rfl⟩
    · rintro ⟨found,rfl,rfl,rfl⟩
      exact ⟨r,found,rfl,rfl,rfl,rfl⟩

theorem ready_exists {plant : Plant} {w : World} (mapped : BlocksMapped plant.plc w.plc) : ∃ v, Ready plant w v := by
  obtain ⟨r,found⟩ := regs_exist plant.runnable plant.built mapped
  exact ⟨{ regs := r, issued := w.issued, calls := w.calls, rogues := w.rogues },mapped,
    view_eq_some.mpr ⟨found,rfl,rfl,rfl⟩⟩

section
variable {plant : Plant} {w w' : World} {v : View}

theorem callAt_found {i : ℕ} {call : Call} (found : w.callAt i = some call) : w.calls[i]? = some call := by
  unfold World.callAt at found
  split_ifs at found
  exact found

theorem readAckField_regs (ready : Ready plant w v) :
    readAckField plant w.plc "ack_seq" = some v.regs.ackSeq ∧
      readAckField plant w.plc "ack_result" = some v.regs.ackResult := by
  obtain ⟨fields,served,ackSeq,ackResult⟩ :=
    readBlock_regs plant ready.mapped (view_eq_some.mp ready.seen).1
  simp [readAckField,served,Except.toOption,ackSeq,ackResult]

/-- A command block write goes through and is seen as one. -/
theorem writeBlock_ready (ready : Ready plant w v) (code : CmdCode) (arg0 : ℤ) (seq : ℕ) {s : PlcState}
    (served : writeBlock w.plc plant.plc.contract.commandBlock (commandFields code arg0 seq) = some s) :
    Ready plant { w with plc := s } (v.writeBlock code seq) := by
  obtain ⟨seen,issued,calls,rogues⟩ := view_eq_some.mp ready.seen
  obtain ⟨s',served',mapped,after⟩ := writeBlock_regs plant ready.mapped seen code arg0 seq
  cases served.symm.trans served'
  exact ⟨mapped,view_eq_some.mpr ⟨after,issued,calls,rogues⟩⟩

/-- A change of the masters alone is seen as it is. -/
theorem Ready.masters (ready : Ready plant w v) (issued : Option ℕ) (calls : List Call)
    (rogues : List (CmdCode × ℕ)) :
    Ready plant { plc := w.plc, issued, calls, rogues } { regs := v.regs, issued, calls, rogues } :=
  ⟨ready.mapped,view_eq_some.mpr ⟨(view_eq_some.mp ready.seen).1,rfl,rfl,rfl⟩⟩

theorem Ready.eq (ready : Ready plant w v) :
    v = { regs := v.regs, issued := w.issued, calls := w.calls, rogues := w.rogues } := by
  obtain ⟨_,issued,calls,rogues⟩ := view_eq_some.mp ready.seen
  rw [issued,calls,rogues]

theorem scan_ready (ready : Ready plant w v) {dt : ℚ} {s : PlcState} (scanned : scan plant.plc w.plc dt = .ok s) :
    ∃ v', Ready plant { w with plc := s } v' ∧ Moves v (.scan dt) (observe plant w (.scan dt)) v' := by
  obtain ⟨seen,issued,calls,rogues⟩ := view_eq_some.mp ready.seen
  have mapped := scan_mapped scanned ready.mapped
  rcases scan_regs plant.runnable plant.built scanned seen with ⟨same,idle,after⟩ | ⟨result,pending,ran,after⟩
  · refine ⟨v,⟨mapped,view_eq_some.mpr ⟨after,issued,calls,rogues⟩⟩,?_⟩
    simp only [observe,idle]
    exact .idle dt same
  · refine ⟨{ v with regs := { v.regs with ackSeq := v.regs.seq, ackResult := result.toNat } },
      ⟨mapped,view_eq_some.mpr ⟨after,issued,calls,rogues⟩⟩,?_⟩
    simp only [observe,ran]
    exact .execute dt pending result

theorem request_ready (ready : Ready plant w v) {funcCode : ℕ} {address : ℤ} {values : List ℕ}
    (spares : Spares plant (.write funcCode address values)) :
    Ready plant { w with plc := request w.plc funcCode address values } v := by
  obtain ⟨seen,issued,calls,rogues⟩ := view_eq_some.mp ready.seen
  obtain ⟨_,_,_,_,hCode,hSeq,hAckSeq,hAckResult,_,inCode,inSeq,inAckSeq,inAckResult⟩ :=
    fields_exist plant.runnable plant.built
  have kept {a : ℤ} (inBlock : a ∈ plant.plc.contract.commandBlock.span ∨ a ∈ plant.plc.contract.ackBlock.span) :
      (request w.plc funcCode address values).memory.get .holding a = w.plc.memory.get .holding a := by
    refine request_get fun holding => ?_
    obtain ⟨command,ack⟩ := spares holding
    have outside : a ∉ Span.mk address (address + values.length) := by
      rcases inBlock with inCommand | inAck
      · exact command.symm.not_mem inCommand
      · exact ack.symm.not_mem inAck
    simp only [Span.mem_def] at outside
    omega
  have after : regs plant.plc (request w.plc funcCode address values) = some v.regs := by
    rw [regs_eq_some hCode hSeq hAckSeq hAckResult] at seen ⊢
    rwa [kept (.inl inCode),kept (.inl inSeq),kept (.inr inAckSeq),kept (.inr inAckResult)]
  exact ⟨request_mapped ready.mapped _ _ _,view_eq_some.mpr ⟨after,issued,calls,rogues⟩⟩

/-- Every step of a world is a move of its view. -/
theorem step_refines {a : Action} (ready : Ready plant w v) (spares : Spares plant a)
    (moved : step plant w a = some w') :
    ∃ v', Ready plant w' v' ∧ Moves v a (observe plant w a) v' := by
  obtain ⟨ackSeq,ackResult⟩ := readAckField_regs ready
  have same := ready.eq
  generalize v.regs = r at *
  subst same
  cases a with
  | call code arg0 =>
    cases moved
    exact ⟨_,ready.masters _ _ _,.call code arg0⟩
  | readAck i =>
    simp only [step,Option.bind_eq_bind,Option.bind_eq_some_iff] at moved
    obtain ⟨call,found,moved⟩ := moved
    cases phase : call.phase with
    | reading =>
      simp only [phase,ackSeq,Option.bind_some,Option.some.injEq] at moved
      subst moved
      exact ⟨_,ready.masters _ _ _,.readAck (callAt_found found) phase⟩
    | _ => simp [phase] at moved
  | send i =>
    simp only [step,Option.bind_eq_bind,Option.bind_eq_some_iff] at moved
    obtain ⟨call,found,moved⟩ := moved
    cases phase : call.phase with
    | writing seq applied =>
      simp only [phase,Option.bind_eq_some_iff,Option.some.injEq] at moved
      obtain ⟨s,served,rfl⟩ := moved
      have wrote := writeBlock_ready (ready.masters w.issued (w.calls.set i { call with phase := .writing seq true })
        w.rogues) call.code call.arg0 seq served
      refine ⟨_,wrote,?_⟩
      have event : observe plant w (.send i) = [.wrote (.call i) call.code.toNat seq] := by
        simp only [observe,callAt_found found]
        cases call
        cases phase
        rfl
      rw [event]
      exact .send (callAt_found found) phase
    | _ => simp [phase] at moved
  | sendReturns i =>
    simp only [step,Option.bind_eq_bind,Option.bind_eq_some_iff] at moved
    obtain ⟨call,found,moved⟩ := moved
    cases phase : call.phase with
    | writing seq applied =>
      cases applied with
      | true =>
        simp only [phase,Option.some.injEq] at moved
        subst moved
        exact ⟨_,ready.masters _ _ _,.sendReturns found phase⟩
      | false => simp [phase] at moved
    | _ => simp [phase] at moved
  | poll i =>
    simp only [step,Option.bind_eq_bind,Option.bind_eq_some_iff] at moved
    obtain ⟨call,found,moved⟩ := moved
    cases phase : call.phase with
    | polling seq =>
      simp only [phase,ackSeq,ackResult,Option.bind_some,Option.some.injEq] at moved
      subst moved
      exact ⟨_,ready.masters _ _ _,.poll (callAt_found found) phase⟩
    | _ => simp [phase] at moved
  | fail i =>
    simp only [step,Option.bind_eq_bind,Option.bind_eq_some_iff] at moved
    obtain ⟨call,found,moved⟩ := moved
    cases phase : call.phase with
    | done outcome => simp [phase] at moved
    | _ =>
      simp only [phase,Option.some.injEq] at moved
      subst moved
      exact ⟨_,ready.masters _ _ _,.fail found (by simp [phase])⟩
  | timeout i =>
    simp only [step,Option.bind_eq_bind,Option.bind_eq_some_iff] at moved
    obtain ⟨call,found,moved⟩ := moved
    cases phase : call.phase with
    | polling seq =>
      simp only [phase,Option.some.injEq] at moved
      subst moved
      exact ⟨_,ready.masters _ _ _,.timeout found phase⟩
    | _ => simp [phase] at moved
  | rogueRead code =>
    simp only [step,ackSeq,Option.bind_eq_bind,Option.bind_some,Option.some.injEq] at moved
    subst moved
    exact ⟨_,ready.masters _ _ _,.rogueRead code⟩
  | rogueWrite k =>
    simp only [step,Option.bind_eq_bind,Option.bind_eq_some_iff,Option.some.injEq] at moved
    obtain ⟨⟨code,seq⟩,found,s,served,rfl⟩ := moved
    refine ⟨_,writeBlock_ready (ready.masters w.issued w.calls (w.rogues.eraseIdx k)) code 0 seq served,?_⟩
    simp only [observe,found]
    exact .rogueWrite found
  | scan dt =>
    simp only [step,Option.bind_eq_bind,Option.bind_eq_some_iff,Option.some.injEq] at moved
    obtain ⟨s,scanned,rfl⟩ := moved
    exact scan_ready ready (toOption_eq_ok.mp scanned)
  | write funcCode address values =>
    cases moved
    exact ⟨_,request_ready ready spares,.write funcCode address values⟩

end

/-! ### Runs -/

/-- A condition on a step, as the view shows what it starts from. -/
def Seen (plant : Plant) (P : View → Action → Prop) (w : World) (a : Action) : Prop := ∀ v ∈ view plant w, P v a

instance (plant : Plant) (P : View → Action → Prop) [∀ v a, Decidable (P v a)] (w : World) (a : Action) :
    Decidable (Seen plant P w a) :=
  inferInstanceAs (Decidable (∀ v ∈ view plant w, P v a))

theorem trace_append {plant : Plant} {w t : World} {first : List Action} (second : List Action)
    (reached : run (step plant) w first = some t) :
    trace plant w (first ++ second) = trace plant w first ++ trace plant t second :=
  log_append second reached

theorem trace_single {plant : Plant} {w t : World} {a : Action} (moved : step plant w a = some t) :
    trace plant w [a] = observe plant w a := by
  simp [trace,log,moved]

/-- What the moves that meet a condition preserve holds after every run whose steps meet it. -/
theorem run_moves {plant : Plant} {w₀ : World} {v₀ : View} (ready : Ready plant w₀ v₀) {P : View → Action → Prop}
    {I : List Event → View → Prop} (start : I [] v₀)
    (advance : ∀ earlier v a events v', I earlier v → P v a → Moves v a events v' → I (earlier ++ events) v')
    {actions : List Action} (spares : ∀ a ∈ actions, Spares plant a)
    (along : Along (step plant) (Seen plant P) w₀ actions) {w : World}
    (reached : run (step plant) w₀ actions = some w) :
    ∃ v, Ready plant w v ∧ I (trace plant w₀ actions) v := by
  refine run_induction (P := fun actions w => (∀ a ∈ actions, Spares plant a) →
    Along (step plant) (Seen plant P) w₀ actions → ∃ v, Ready plant w v ∧ I (trace plant w₀ actions) v)
    (fun _ _ => ⟨v₀,ready,start⟩) ?_ actions w reached spares along
  intro actions w a w' before ih moved spares along
  obtain ⟨earlier,last⟩ := along_concat.mp along
  obtain ⟨v,ready,inv⟩ := ih (fun b member => spares b (List.mem_append_left _ member)) earlier
  obtain ⟨v',ready',moves⟩ := step_refines ready (spares a (by simp)) moved
  refine ⟨v',ready',?_⟩
  rw [trace_append _ before,trace_single moved]
  exact advance _ v a _ v' inv (last w before v ready.seen) moves

/-- A condition on steps that an invariant of the moves implies holds along every run. -/
theorem along_moves {plant : Plant} {w₀ : World} {v₀ : View} (ready : Ready plant w₀ v₀) {P Q : View → Action → Prop}
    {I : View → Prop} (start : I v₀) (advance : ∀ v a events v', I v → P v a → Moves v a events v' → I v')
    (implies : ∀ v a, I v → P v a → Q v a) {actions : List Action} (spares : ∀ a ∈ actions, Spares plant a)
    (along : Along (step plant) (Seen plant P) w₀ actions) : Along (step plant) (Seen plant Q) w₀ actions := by
  refine along_of_invariant (I := fun w => ∃ v, Ready plant w v ∧ I v) ⟨v₀,ready,start⟩ ?_ ?_ actions
    (along.and (along_of_forall spares w₀))
  · rintro w a w' ⟨v,ready,inv⟩ ⟨meets,spares⟩ moved
    obtain ⟨v',ready',moves⟩ := step_refines ready spares moved
    exact ⟨v',ready',advance v a _ v' inv (meets v ready.seen) moves⟩
  · rintro w a ⟨v,ready,inv⟩ ⟨meets,_⟩ v' seen
    cases ready.seen.symm.trans seen
    exact implies v a inv (meets v ready.seen)

theorem Seen.and {plant : Plant} {P Q : View → Action → Prop} {w : World} {actions : List Action}
    (one : Along (step plant) (Seen plant P) w actions) (two : Along (step plant) (Seen plant Q) w actions) :
    Along (step plant) (Seen plant (fun v a => P v a ∧ Q v a)) w actions :=
  (one.and two).imp fun _ _ both v seen => ⟨both.1 v seen,both.2 v seen⟩

theorem seen_of_forall {plant : Plant} {P : Action → Prop} {actions : List Action} (all : ∀ a ∈ actions, P a)
    (w : World) : Along (step plant) (Seen plant (fun _ a => P a)) w actions :=
  (along_of_forall all w).imp fun _ _ holds _ _ => holds

end MockPlant.Masters
