import MockPlant.ExactlyOnce

/-!
The contention check. An invoke is refused exactly when the PLC does not acknowledge
the number that the gateway recorded, the number of the last block write that came
back. After another master's commands, each executed, that is so until the gateway
has resynchronised; but an own command that is still unexecuted, or whose write was
served and failed, looks the same.
-/
namespace MockPlant.Contention
open MockPlant.Contract MockPlant.Plc MockPlant.ScanCommands MockPlant.Handshake MockPlant.Masters MockPlant.Mailbox
open MockPlant.Attribution MockPlant.ExactlyOnce MockPlant.Runs

def Uncontended (calls : List Call) : Prop :=
  ∀ call ∈ calls, ∀ current expected, call.phase ≠ .done (.contended current expected)

/-! ### When an invoke is contended -/

/-- The number of the last block write that has come back, after a step. -/
def afterReturn (last : Option ℕ) (calls : List Call) : Action → Option ℕ
  | .sendReturns i =>
    match calls[i]? with
    | some ⟨_,_,.writing seq true⟩ => some seq
    | _ => last
  | _ => last

/-- An invoke reads the acknowledgement of the last block write that came back. -/
def ReadsReturned (plant : Plant) (last : Option ℕ) (w : World) : Action → Prop
  | .readAck _ => ∀ n ∈ last, ∀ r ∈ regs plant.plc w.plc, r.ackSeq = n
  | _ => True

/-- Every first ack read of a run reads the acknowledgement of the last block write
    that came back before it; nothing is asked before the first one comes back. -/
def AllReadReturned (plant : Plant) : Option ℕ → World → List Action → Prop
  | _, _, [] => True
  | last, w, a :: rest =>
    ReadsReturned plant last w a ∧
      ∀ w' ∈ step plant w a, AllReadReturned plant (afterReturn last w.calls a) w' rest

theorem uncontended_setCall {calls : List Call} {i : ℕ} {call : Call} (found : calls[i]? = some call)
    (active : ended call.phase = false) {phase : Phase} :
    Uncontended (calls.set i { call with phase }) ↔
      Uncontended calls ∧ ∀ current expected, phase ≠ .done (.contended current expected) := by
  have bound := (List.getElem?_eq_some_iff.mp found).1
  constructor
  · intro fine
    refine ⟨fun other member => ?_,fine { call with phase } (List.mem_of_getElem? (List.getElem?_set_self bound))⟩
    obtain ⟨j,there⟩ := List.mem_iff_getElem?.mp member
    by_cases same : j = i
    · subst same
      cases found.symm.trans there
      rintro current expected contended
      rw [contended] at active
      cases active
    · exact fine other (List.mem_of_getElem? ((List.getElem?_set_ne (Ne.symm same)).trans there))
  · rintro ⟨fine,clear⟩ other member
    obtain ⟨j,there⟩ := List.mem_iff_getElem?.mp member
    rcases getElem?_setCall found there with ⟨_,rfl⟩ | ⟨_,there⟩
    · exact clear
    · exact fine other (List.mem_of_getElem? there)

/-- What a move does to the contended invokes and to `_issued`. -/
theorem moves_issued {v v' : View} {a : Action} {events : List Event} (moves : Moves v a events v') :
    (Uncontended v'.calls ↔
      Uncontended v.calls ∧ ∀ i, a = .readAck i → v.issued = none ∨ v.issued = some v.regs.ackSeq) ∧
    (Uncontended v'.calls → v'.issued = afterReturn v.issued v.calls a) := by
  have settled {i : ℕ} {call : Call} (found : v.calls[i]? = some call) (active : ended call.phase = false)
      {phase : Phase} (clear : ∀ current expected, phase ≠ .done (.contended current expected))
      (other : ∀ i, a ≠ .readAck i) :
      Uncontended (v.calls.set i { call with phase }) ↔
        Uncontended v.calls ∧ ∀ i, a = .readAck i → v.issued = none ∨ v.issued = some v.regs.ackSeq := by
    rw [uncontended_setCall found active]
    exact and_congr_right fun _ => iff_of_true clear fun i same => absurd same (other i)
  cases moves with
  | call code arg0 =>
    refine ⟨?_,fun _ => rfl⟩
    simp [Uncontended,or_imp,forall_and]
  | @readAck i call found phase =>
    have active : ended call.phase = false := by rw [phase]; rfl
    rcases afterRead_cases v.issued v.regs.ackSeq with ⟨known,after⟩ | ⟨expected,other,different,after⟩
    · rw [after]
      refine ⟨?_,fun _ => rfl⟩
      simp only [View.setCall]
      rw [uncontended_setCall found active]
      simp [known]
    · rw [after]
      have refused : ¬ Uncontended ((v.setCall i call (.done (.contended v.regs.ackSeq expected))).calls) := by
        rw [View.setCall,uncontended_setCall found active]
        simp
      refine ⟨iff_of_false refused ?_,fun fine => absurd fine refused⟩
      rintro ⟨_,known⟩
      rcases known i rfl with none | some
      · rw [other] at none
        cases none
      · rw [other] at some
        exact different (Option.some.inj some).symm
  | send found phase => exact ⟨settled found (by rw [phase]; rfl) (by simp) (by simp),fun _ => rfl⟩
  | @sendReturns i call seq found phase =>
    refine ⟨settled found (by rw [phase]; rfl) (by simp) (by simp),fun _ => ?_⟩
    obtain ⟨code,arg0,_⟩ := call
    cases phase
    simp [afterReturn,found]
  | @poll i call seq found phase =>
    refine ⟨settled found (by rw [phase]; rfl) ?_ (by simp),fun _ => rfl⟩
    rcases afterPoll_cases seq v.regs.ackSeq v.regs.ackResult with ⟨_,after⟩ | ⟨_,r,_,after⟩ | ⟨_,_,after⟩ <;>
      simp [after]
  | fail found phase => exact ⟨settled found (active_of_ne phase) (by simp) (by simp),fun _ => rfl⟩
  | timeout found phase => exact ⟨settled found (by rw [phase]; rfl) (by simp) (by simp),fun _ => rfl⟩
  | rogueRead | rogueWrite | idle | execute | write => exact ⟨by simp [View.writeBlock],fun _ => rfl⟩

/-- A contended invoke stays so. -/
theorem uncontended_of_run {plant : Plant} {actions : List Action} (spares : ∀ a ∈ actions, Spares plant a) {w u : World}
    {v : View} (ready : Ready plant w v) (reached : run (step plant) w actions = some u) (fine : Uncontended u.calls) :
    Uncontended v.calls := by
  induction actions generalizing w v with
  | nil =>
    cases reached
    rwa [← (view_eq_some.mp ready.seen).2.2.1]
  | cons a rest ih =>
    obtain ⟨w',moved,later⟩ := Option.bind_eq_some_iff.mp reached
    obtain ⟨v',ready',moves⟩ := step_refines ready (spares a (by simp)) moved
    have next := ih (fun b member => spares b (List.mem_cons_of_mem _ member)) ready' later
    exact ((moves_issued moves).1.mp next).1

theorem uncontended_run {plant : Plant} {actions : List Action} (spares : ∀ a ∈ actions, Spares plant a) {w u : World}
    {v : View} (ready : Ready plant w v) (fine : Uncontended v.calls) (reached : run (step plant) w actions = some u) :
    Uncontended u.calls ↔ AllReadReturned plant v.issued w actions := by
  induction actions generalizing w v with
  | nil =>
    cases reached
    rw [(view_eq_some.mp ready.seen).2.2.1]
    exact iff_of_true fine trivial
  | cons a rest ih =>
    obtain ⟨w',moved,later⟩ := Option.bind_eq_some_iff.mp reached
    obtain ⟨v',ready',moves⟩ := step_refines ready (spares a (by simp)) moved
    obtain ⟨contended,issued⟩ := moves_issued moves
    obtain ⟨seen,_,calls,_⟩ := view_eq_some.mp ready.seen
    have here : ReadsReturned plant v.issued w a ↔
        ∀ i, a = .readAck i → v.issued = none ∨ v.issued = some v.regs.ackSeq := by
      cases a with
      | readAck i => cases issued : v.issued <;> simp [ReadsReturned,seen,eq_comm]
      | _ => simp [ReadsReturned]
    have sparesRest : ∀ b ∈ rest, Spares plant b := fun b member => spares b (List.mem_cons_of_mem _ member)
    simp only [AllReadReturned,moved,Option.mem_some_iff,forall_eq',here,calls]
    by_cases known : ∀ i, a = .readAck i → v.issued = none ∨ v.issued = some v.regs.ackSeq
    · have fine' := contended.mpr ⟨fine,known⟩
      rw [ih sparesRest ready' fine' later,issued fine']
      exact (and_iff_right known).symm
    · refine iff_of_false (fun ends => ?_) (fun both => known both.1)
      -- A contended invoke stays contended to the end of the run.
      have refused : ¬ Uncontended v'.calls := fun fine' => known (contended.mp fine').2
      exact refused (uncontended_of_run sparesRest ready' later ends)

/-- From a fresh gateway no invoke is contended exactly when every first ack read finds
    the number of the last block write that came back. -/
theorem uncontended_iff_reads_returned {plant : Plant} {w₀ w : World} {actions : List Action}
    (mapped : BlocksMapped plant.plc w₀.plc) (fresh : w₀.calls = []) (unissued : w₀.issued = none)
    (spares : ∀ a ∈ actions, Spares plant a) (reached : run (step plant) w₀ actions = some w) :
    Uncontended w.calls ↔ AllReadReturned plant none w₀ actions := by
  obtain ⟨v₀,ready⟩ := ready_exists mapped
  obtain ⟨_,issued,calls,_⟩ := view_eq_some.mp ready.seen
  have fine : Uncontended v₀.calls := by
    rw [← calls,fresh]
    simp [Uncontended]
  rw [uncontended_run spares ready fine reached,← issued,unissued]

theorem shipped_uncontended_iff_reads_returned :
    let actions := [.call .start 0,.readAck 0,.send 0,.sendReturns 0,.timeout 0,.scan (1 / 100),.call .stop 0,.readAck 1,
      .send 1,.fail 1,.call .stop 0,.readAck 2]
    ∃ w, run (step shipped) shippedWorld actions = some w ∧
      (Uncontended w.calls ↔ AllReadReturned shipped none shippedWorld actions) := by
  intro actions
  obtain ⟨w,reached⟩ := Option.isSome_iff_exists.mp
    (by decide +kernel : (run (step shipped) shippedWorld actions).isSome)
  exact ⟨w,reached,uncontended_iff_reads_returned shippedWorld_mapped rfl rfl (by decide +kernel) reached⟩

/-- An invoke that follows a timed-out one before the scan is refused, with no other master. -/
theorem late_scan_contends :
    let actions := [.call .start 0,.readAck 0,.send 0,.sendReturns 0,.timeout 0,.call .stop 0,.readAck 1]
    (∀ a ∈ actions, NoRogue a) ∧ Along (step shipped) (Seen shipped Sequential) shippedWorld actions ∧
      ∃ w, run (step shipped) shippedWorld actions = some w ∧
        w.calls.map (·.phase) = [.done .timeout,.done (.contended 0 1)] ∧ ¬ Uncontended w.calls := by
  intro actions
  have ends : (run (step shipped) shippedWorld actions).map (·.calls) =
      some [⟨.start,0,.done .timeout⟩,⟨.stop,0,.done (.contended 0 1)⟩] := by decide +kernel
  obtain ⟨w,reached,calls⟩ := Option.map_eq_some_iff.mp ends
  refine ⟨by decide,by decide +kernel,w,reached,by rw [calls]; rfl,?_⟩
  rw [calls]
  intro fine
  exact fine ⟨.stop,0,.done (.contended 0 1)⟩ (by simp) 0 1 rfl

end MockPlant.Contention
