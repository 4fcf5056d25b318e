import MockPlant.Masters

/-!
Whose command an acknowledgement is of. A returned result belongs to its own
invoke's command as long as every command block goes out under a number that the
PLC does not already acknowledge and that no waiting invoke holds, and no other
master overwrites a waiting number. The handshake checks none of this: it numbers
a block from an ack that it read in an earlier transaction.
-/
namespace MockPlant.Attribution
open MockPlant.Contract MockPlant.Plc MockPlant.ScanCommands MockPlant.Handshake MockPlant.Masters MockPlant.Mailbox
open MockPlant.Runs

/-- The number that an invoke waits for, once its block has been served. -/
def waiting : Phase → Option ℕ
  | .writing seq true | .polling seq => some seq
  | _ => none

/-- The two blocks as a mailbox. -/
def slot (r : Regs) : Slot ℕ ℕ ℕ := ⟨r.code,r.seq,r.ackSeq,r.ackResult⟩

def ended : Phase → Bool
  | .done _ => true
  | _ => false

theorem ended_iff {phase : Phase} : ended phase ↔ ∃ outcome, phase = .done outcome := by
  cases phase <;> simp [ended]

/-- An invoke that waits for a number has not ended. -/
theorem active_of_waiting {phase : Phase} {n : ℕ} (waits : waiting phase = some n) : ended phase = false := by
  cases phase with
  | done outcome => cases waits
  | _ => rfl

theorem active_of_ne {phase : Phase} (running : ∀ outcome, phase ≠ .done outcome) : ended phase = false := by
  rw [← Bool.not_eq_true,ended_iff]
  rintro ⟨outcome,done⟩
  exact running outcome done

/-! ### Conditions on block writes -/

/-- The number under which a step serves an invoke's block write for the first time. -/
def firstSend (v : View) : Action → Option ℕ
  | .send i =>
    match v.calls[i]? with
    | some ⟨_,_,.writing seq false⟩ => some seq
    | _ => none
  | _ => none

/-- The number under which a step serves the other master's block write. -/
def rogueSend (v : View) : Action → Option ℕ
  | .rogueWrite k => (v.rogues[k]?).map (·.2)
  | _ => none

/-- An invoke's first block write goes out under a number that is not the one acknowledged last. -/
def Unacknowledged (v : View) (a : Action) : Prop := ∀ seq ∈ firstSend v a, v.regs.ackSeq ≠ seq

/-- An invoke's first block write goes out under a number that no waiting invoke holds. -/
def Unshared (v : View) (a : Action) : Prop :=
  ∀ seq ∈ firstSend v a, ∀ other ∈ v.calls, waiting other.phase ≠ some seq

/-- The other master writes a number that an invoke waits for only once it is acknowledged. -/
def Undisputed (v : View) (a : Action) : Prop :=
  ∀ seq ∈ rogueSend v a, (∃ call ∈ v.calls, waiting call.phase = some seq) → v.regs.ackSeq = seq

/-- An invoke starts when the ones before it have ended. -/
def Sequential (v : View) : Action → Prop
  | .call _ _ => ∀ call ∈ v.calls, ended call.phase
  | _ => True

/-- A step of the gateway, of the PLC, or of a master that keeps off the blocks. -/
def NoRogue : Action → Prop
  | .rogueRead _ | .rogueWrite _ => False
  | _ => True

instance (v : View) (a : Action) : Decidable (Unacknowledged v a) :=
  inferInstanceAs (Decidable (∀ seq ∈ firstSend v a, v.regs.ackSeq ≠ seq))

instance (v : View) (a : Action) : Decidable (Unshared v a) :=
  inferInstanceAs (Decidable (∀ seq ∈ firstSend v a, ∀ other ∈ v.calls, waiting other.phase ≠ some seq))

instance (v : View) (a : Action) : Decidable (Undisputed v a) :=
  inferInstanceAs (Decidable (∀ seq ∈ rogueSend v a, (∃ call ∈ v.calls, waiting call.phase = some seq) → _))

instance (v : View) : ∀ a : Action, Decidable (Sequential v a)
  | .call _ _ => inferInstanceAs (Decidable (∀ call ∈ v.calls, ended call.phase))
  | .readAck _ | .send _ | .sendReturns _ | .poll _ | .fail _ | .timeout _ | .rogueRead _ | .rogueWrite _ | .scan _
  | .write _ _ _ => inferInstanceAs (Decidable True)

instance : ∀ a : Action, Decidable (NoRogue a)
  | .rogueRead _ | .rogueWrite _ => inferInstanceAs (Decidable False)
  | .call _ _ | .readAck _ | .send _ | .sendReturns _ | .poll _ | .fail _ | .timeout _ | .scan _
  | .write _ _ _ => inferInstanceAs (Decidable True)

/-- A step that serves no block write of the other master disputes no number. -/
theorem undisputed_of_none {v : View} {a : Action} (silent : rogueSend v a = none) : Undisputed v a := by
  intro seq sent
  rw [silent] at sent
  cases sent

theorem undisputed_of_noRogue {a : Action} (noRogue : NoRogue a) (v : View) : Undisputed v a := by
  cases a with
  | rogueWrite => exact noRogue.elim
  | _ => exact undisputed_of_none rfl

theorem firstSend_eq_some {v : View} {a : Action} {seq : ℕ} (sent : firstSend v a = some seq) :
    ∃ (i : ℕ) (code : CmdCode) (arg0 : ℤ), a = .send i ∧ v.calls[i]? = some ⟨code,arg0,.writing seq false⟩ := by
  unfold firstSend at sent
  split at sent
  case h_2 => cases sent
  case h_1 i =>
    split at sent
    case h_2 => cases sent
    case h_1 code arg0 number found =>
      cases sent
      exact ⟨i,code,arg0,rfl,found⟩

/-! ### The invariant -/

/-- Every waiting invoke's command is pending, executed or lost, no two invokes wait
    for one number, and every result that an invoke from `base` on has returned is of
    its own command. -/
structure Attributed (base : ℕ) (trace : List Event) (regs : Regs) (calls : List Call) : Prop where
  awaiting : ∀ (i : ℕ) (call : Call) (n : ℕ), calls[i]? = some call → waiting call.phase = some n →
    Awaiting AckResult.toNat trace (slot regs) (.call i) call.code.toNat n
  distinct : ∀ (i j : ℕ) (call other : Call) (n : ℕ), calls[i]? = some call → calls[j]? = some other →
    waiting call.phase = some n → waiting other.phase = some n → i = j
  served : ∀ (i : ℕ) (call : Call) (r : AckResult), base ≤ i → calls[i]? = some call →
    call.phase = .done (.result r) → ∃ n, Served trace (.call i) call.code.toNat n r

theorem getElem?_setCall {calls : List Call} {i j : ℕ} {call other : Call} {phase : Phase}
    (found : calls[i]? = some call) (there : (calls.set i { call with phase })[j]? = some other) :
    j = i ∧ other = { call with phase } ∨ j ≠ i ∧ calls[j]? = some other := by
  have bound := (List.getElem?_eq_some_iff.mp found).1
  by_cases same : j = i
  · subst same
    simp only [List.getElem?_set_self bound,Option.some.injEq] at there
    exact .inl ⟨rfl,there.symm⟩
  · rw [List.getElem?_set_ne (Ne.symm same)] at there
    exact .inr ⟨same,there⟩

section
variable {base : ℕ} {trace : List Event} {regs : Regs} {calls : List Call}

/-- A phase that waits for nothing new keeps the invariant. -/
theorem Attributed.setCall (inv : Attributed base trace regs calls) {i : ℕ} {call : Call} (found : calls[i]? = some call)
    {phase : Phase} (waits : ∀ n, waiting phase = some n → waiting call.phase = some n)
    (returns : ∀ r, phase = .done (.result r) → ∃ n, Served trace (.call i) call.code.toNat n r) :
    Attributed base trace regs (calls.set i { call with phase }) := by
  refine ⟨?_,?_,?_⟩
  · intro j other n there waiting
    rcases getElem?_setCall found there with ⟨rfl,rfl⟩ | ⟨_,there⟩
    · exact inv.awaiting j call n found (waits n waiting)
    · exact inv.awaiting j other n there waiting
  · intro j k one two n hj hk waitsOne waitsTwo
    rcases getElem?_setCall found hj with ⟨rfl,rfl⟩ | ⟨_,thereJ⟩
    · rcases getElem?_setCall found hk with ⟨rfl,rfl⟩ | ⟨_,thereK⟩
      · rfl
      · exact inv.distinct _ _ _ _ n found thereK (waits n waitsOne) waitsTwo
    · rcases getElem?_setCall found hk with ⟨rfl,rfl⟩ | ⟨_,thereK⟩
      · exact inv.distinct _ _ _ _ n thereJ found waitsOne (waits n waitsTwo)
      · exact inv.distinct _ _ _ _ n thereJ thereK waitsOne waitsTwo
  · intro j other r new there returned
    rcases getElem?_setCall found there with ⟨rfl,rfl⟩ | ⟨_,there⟩
    · exact returns r returned
    · exact inv.served j other r new there returned

theorem Attributed.call (inv : Attributed base trace regs calls) (code : CmdCode) (arg0 : ℤ) :
    Attributed base trace regs (calls ++ [{ code, arg0, phase := .reading }]) := by
  have old {i : ℕ} {call : Call} (there : (calls ++ [{ code, arg0, phase := .reading }])[i]? = some call)
      (moved : call.phase ≠ .reading) : calls[i]? = some call := by
    rcases getElem?_concat.mp there with earlier | ⟨_,rfl⟩
    · exact earlier
    · exact absurd rfl moved
  have moved_of_waiting {call : Call} {n : ℕ} (waits : waiting call.phase = some n) : call.phase ≠ .reading := by
    intro reading
    rw [reading] at waits
    cases waits
  refine ⟨?_,?_,?_⟩
  · intro i call n there waits
    exact inv.awaiting i call n (old there (moved_of_waiting waits)) waits
  · intro i j one two n hi hj waitsOne waitsTwo
    exact inv.distinct i j one two n (old hi (moved_of_waiting waitsOne)) (old hj (moved_of_waiting waitsTwo)) waitsOne
      waitsTwo
  · intro i call r new there returned
    exact inv.served i call r new (old there (by simp [returned])) returned

/-- A first block write starts a wait and leaves the others alone. -/
theorem Attributed.send_first (inv : Attributed base trace regs calls) {i : ℕ} {call : Call} {seq : ℕ}
    (found : calls[i]? = some call) (unacknowledged : regs.ackSeq ≠ seq)
    (unshared : ∀ other ∈ calls, waiting other.phase ≠ some seq) :
    Attributed base (trace ++ [.wrote (.call i) call.code.toNat seq]) { regs with code := call.code.toNat, seq := seq }
      (calls.set i { call with phase := .writing seq true }) := by
  have other_number {j : ℕ} {other : Call} {n : ℕ} (there : calls[j]? = some other)
      (waits : waiting other.phase = some n) : seq ≠ n := by
    rintro rfl
    exact unshared other (List.mem_of_getElem? there) waits
  refine ⟨?_,?_,?_⟩
  · intro j other n there waits
    rcases getElem?_setCall found there with ⟨rfl,rfl⟩ | ⟨_,there⟩
    · cases waits
      have unacked : (slot regs).ack ≠ seq := unacknowledged
      exact Awaiting.begin trace _ _ unacked
    · exact (inv.awaiting j other n there waits).write_other (fun same => absurd same (other_number there waits))
  · intro j k one two n hj hk waitsOne waitsTwo
    rcases getElem?_setCall found hj with ⟨rfl,rfl⟩ | ⟨_,thereJ⟩
    · rcases getElem?_setCall found hk with ⟨rfl,rfl⟩ | ⟨_,thereK⟩
      · rfl
      · cases waitsOne
        exact absurd rfl (other_number thereK waitsTwo)
    · rcases getElem?_setCall found hk with ⟨rfl,rfl⟩ | ⟨_,thereK⟩
      · cases waitsTwo
        exact absurd rfl (other_number thereJ waitsOne)
      · exact inv.distinct _ _ _ _ n thereJ thereK waitsOne waitsTwo
  · intro j other r new there returned
    rcases getElem?_setCall found there with ⟨rfl,rfl⟩ | ⟨_,there⟩
    · cases returned
    · obtain ⟨n,served⟩ := inv.served j other r new there returned
      exact ⟨n,served.append _⟩

/-- Serving a block write again changes no wait. -/
theorem Attributed.send_again (inv : Attributed base trace regs calls) {i : ℕ} {call : Call} {seq : ℕ}
    (found : calls[i]? = some call) (phase : call.phase = .writing seq true) :
    Attributed base (trace ++ [.wrote (.call i) call.code.toNat seq]) { regs with code := call.code.toNat, seq := seq }
      (calls.set i { call with phase := .writing seq true }) := by
  have waits : waiting call.phase = some seq := by rw [phase]; rfl
  have same : calls.set i { call with phase := .writing seq true } = calls := by
    obtain ⟨bound,here⟩ := List.getElem?_eq_some_iff.mp found
    have unchanged : { call with phase := .writing seq true } = call := by rw [← phase]
    rw [unchanged,← here]
    exact List.set_getElem_self bound
  rw [same]
  refine ⟨?_,inv.distinct,?_⟩
  · intro j other n there waits'
    by_cases own : j = i
    · subst own
      cases found.symm.trans there
      cases waits.symm.trans waits'
      exact (inv.awaiting j call seq found waits).write_again
    · refine (inv.awaiting j other n there waits').write_other fun equal => ?_
      subst equal
      exact absurd (inv.distinct j i other call _ there found waits' waits) own
  · intro j other r new there returned
    obtain ⟨n,served⟩ := inv.served j other r new there returned
    exact ⟨n,served.append _⟩

theorem Attributed.rogueWrite (inv : Attributed base trace regs calls) {code seq : ℕ}
    (undisputed : (∃ call ∈ calls, waiting call.phase = some seq) → regs.ackSeq = seq) :
    Attributed base (trace ++ [.wrote .rogue code seq]) { regs with code := code, seq := seq } calls := by
  refine ⟨?_,inv.distinct,?_⟩
  · intro i call n there waits
    refine (inv.awaiting i call n there waits).write_other fun same => ?_
    subst same
    exact undisputed ⟨call,List.mem_of_getElem? there,waits⟩
  · intro i call r new there returned
    obtain ⟨n,served⟩ := inv.served i call r new there returned
    exact ⟨n,served.append _⟩

theorem Attributed.execute (inv : Attributed base trace regs calls) (pending : regs.seq ≠ regs.ackSeq)
    (result : AckResult) :
    Attributed base (trace ++ [.executed regs.code regs.seq result])
      { regs with ackSeq := regs.seq, ackResult := result.toNat } calls := by
  refine ⟨?_,inv.distinct,?_⟩
  · intro i call n there waits
    exact (inv.awaiting i call n there waits).serve pending result
  · intro i call r new there returned
    obtain ⟨n,served⟩ := inv.served i call r new there returned
    exact ⟨n,served.append _⟩

end

/-- Moves that meet the conditions keep the invariant. -/
theorem Attributed.moves {base : ℕ} {trace : List Event} {v v' : View} {a : Action} {events : List Event}
    (inv : Attributed base trace v.regs v.calls) (unacknowledged : Unacknowledged v a) (unshared : Unshared v a)
    (undisputed : Undisputed v a) (moves : Moves v a events v') : Attributed base (trace ++ events) v'.regs v'.calls := by
  cases moves with
  | call code arg0 => simpa using inv.call code arg0
  | readAck found phase =>
    rw [List.append_nil]
    rcases afterRead_cases v.issued v.regs.ackSeq with ⟨_,after⟩ | ⟨expected,_,_,after⟩
    · rw [after]
      exact inv.setCall found (fun n waits => by cases waits) (fun r returned => by cases returned)
    · rw [after]
      exact inv.setCall found (fun n waits => by cases waits) (fun r returned => by cases returned)
  | @send i call seq applied found phase =>
    cases applied with
    | true => exact inv.send_again found phase
    | false =>
      obtain ⟨code,arg0,_⟩ := call
      cases phase
      have sent : firstSend v (.send i) = some seq := by simp [firstSend,found]
      exact inv.send_first found (unacknowledged seq sent) (unshared seq sent)
  | sendReturns found phase =>
    rw [List.append_nil]
    refine inv.setCall found ?_ ?_
    · intro n waits
      rw [phase]
      exact waits
    · intro r returned
      cases returned
  | @poll i call seq found phase =>
    rw [List.append_nil]
    have waits : waiting call.phase = some seq := by rw [phase]; rfl
    rcases afterPoll_cases seq v.regs.ackSeq v.regs.ackResult with ⟨_,after⟩ | ⟨acked,r,register,after⟩ | ⟨_,_,after⟩
    · rw [after]
      exact inv.setCall found (fun n same => waits.trans same) (fun r returned => by cases returned)
    · rw [after]
      refine inv.setCall found (fun n none => by cases none) fun r' returned => ?_
      cases returned
      -- The acknowledgement of the number is of this invoke's own command.
      obtain ⟨result,served,same⟩ := (inv.awaiting i call seq found waits).answer acked
      have equal : r.toNat = result.toNat := register.symm.trans same
      have known := congrArg AckResult.ofNat? equal
      rw [AckResult.ofNat?_toNat,AckResult.ofNat?_toNat] at known
      cases known
      exact ⟨seq,served⟩
    · rw [after]
      exact inv.setCall found (fun n waits => by cases waits) (fun r returned => by cases returned)
  | fail found phase =>
    rw [List.append_nil]
    exact inv.setCall found (fun n waits => by cases waits) (fun r returned => by cases returned)
  | timeout found phase =>
    rw [List.append_nil]
    exact inv.setCall found (fun n waits => by cases waits) (fun r returned => by cases returned)
  | rogueRead => simpa using inv
  | @rogueWrite k code seq found =>
    have sent : rogueSend v (.rogueWrite k) = some seq := by simp [rogueSend,found]
    exact inv.rogueWrite (undisputed seq sent)
  | idle => simpa using inv
  | execute dt pending result => exact inv.execute pending result
  | write => simpa using inv

/-! ### One invoke at a time -/

/-- An invoke that has not ended is the last one. -/
def LastActive (calls : List Call) : Prop :=
  ∀ (i : ℕ) (call : Call), calls[i]? = some call → ended call.phase = false → i + 1 = calls.length

theorem LastActive.setCall {calls : List Call} (last : LastActive calls) {i : ℕ} {call : Call}
    (found : calls[i]? = some call) (active : ended call.phase = false) (phase : Phase) :
    LastActive (calls.set i { call with phase }) := by
  intro j other there running
  rw [List.length_set]
  rcases getElem?_setCall found there with ⟨rfl,_⟩ | ⟨_,there⟩
  · exact last j call found active
  · exact last j other there running

theorem LastActive.moves {v v' : View} {a : Action} {events : List Event} (last : LastActive v.calls)
    (sequential : Sequential v a) (moves : Moves v a events v') : LastActive v'.calls := by
  cases moves with
  | call code arg0 =>
    intro i call there running
    rcases getElem?_concat.mp there with earlier | ⟨rfl,_⟩
    · have done := sequential call (List.mem_of_getElem? earlier)
      rw [running] at done
      cases done
    · rw [List.length_append,List.length_singleton]
  | readAck found phase => exact last.setCall found (by rw [phase]; rfl) _
  | send found phase => exact last.setCall found (by rw [phase]; rfl) _
  | sendReturns found phase => exact last.setCall found (by rw [phase]; rfl) _
  | poll found phase => exact last.setCall found (by rw [phase]; rfl) _
  | fail found phase => exact last.setCall found (active_of_ne phase) _
  | timeout found phase => exact last.setCall found (by rw [phase]; rfl) _
  | rogueRead | rogueWrite | idle | execute | write => exact last

/-- When only the last invoke is active, no other one waits for its number. -/
theorem LastActive.unshared {v : View} (last : LastActive v.calls) (a : Action) : Unshared v a := by
  intro seq sent other member waits
  obtain ⟨i,code,arg0,rfl,found⟩ := firstSend_eq_some sent
  obtain ⟨j,there⟩ := List.mem_iff_getElem?.mp member
  have one := last i _ found rfl
  have two := last j other there (active_of_waiting waits)
  obtain rfl : i = j := by omega
  cases found.symm.trans there
  cases waits

/-! ### Runs -/

theorem attributed_start {calls : List Call} (idle : ∀ call ∈ calls, ended call.phase) (regs : Regs) :
    Attributed calls.length [] regs calls := by
  have none_waits {i : ℕ} {call : Call} {n : ℕ} (there : calls[i]? = some call) : waiting call.phase ≠ some n := by
    intro waits
    have done := idle call (List.mem_of_getElem? there)
    rw [active_of_waiting waits] at done
    cases done
  refine ⟨fun i call n there waits => absurd waits (none_waits there),
    fun i j call other n there _ waits _ => absurd waits (none_waits there),fun i call r new there _ => ?_⟩
  have bound := (List.getElem?_eq_some_iff.mp there).1
  omega

section
variable {plant : Plant} {w₀ w : World} {actions : List Action}

/-- The returned results of a run are of the invokes' own commands, when its steps
    meet the three conditions. -/
theorem run_attributed (mapped : BlocksMapped plant.plc w₀.plc) (fresh : w₀.calls = [])
    (spares : ∀ a ∈ actions, Spares plant a) (unacknowledged : Along (step plant) (Seen plant Unacknowledged) w₀ actions)
    (unshared : Along (step plant) (Seen plant Unshared) w₀ actions)
    (undisputed : Along (step plant) (Seen plant Undisputed) w₀ actions)
    (reached : run (step plant) w₀ actions = some w) :
    ∀ (i : ℕ) (call : Call) (r : AckResult), w.calls[i]? = some call → call.phase = .done (.result r) →
      ∃ n, Served (trace plant w₀ actions) (.call i) call.code.toNat n r := by
  obtain ⟨v₀,ready⟩ := ready_exists mapped
  have none : v₀.calls = [] := (view_eq_some.mp ready.seen).2.2.1.symm.trans fresh
  have start : Attributed 0 [] v₀.regs v₀.calls := by
    rw [none]
    exact attributed_start (List.forall_mem_nil _) v₀.regs
  obtain ⟨v,ready',inv⟩ := run_moves (I := fun trace v => Attributed 0 trace v.regs v.calls) ready start
    (fun _ _ _ _ _ inv meets moves => inv.moves meets.1 meets.2.1 meets.2.2 moves) spares
    (Seen.and unacknowledged (Seen.and unshared undisputed)) reached
  rw [(view_eq_some.mp ready'.seen).2.2.1]
  exact fun i call r => inv.served i call r (Nat.zero_le i)

theorem undisputed_along (noRogue : ∀ a ∈ actions, NoRogue a) :
    Along (step plant) (Seen plant Undisputed) w₀ actions :=
  (along_of_forall noRogue w₀).imp fun _ _ absent v _ => undisputed_of_noRogue absent v

/-- Invokes one at a time hold no number in common. -/
theorem unshared_along (mapped : BlocksMapped plant.plc w₀.plc) (fresh : w₀.calls = [])
    (spares : ∀ a ∈ actions, Spares plant a) (sequential : Along (step plant) (Seen plant Sequential) w₀ actions) :
    Along (step plant) (Seen plant Unshared) w₀ actions := by
  obtain ⟨v₀,ready⟩ := ready_exists mapped
  have none : v₀.calls = [] := (view_eq_some.mp ready.seen).2.2.1.symm.trans fresh
  have start : LastActive v₀.calls := by
    rw [none]
    simp [LastActive]
  exact along_moves (I := fun v => LastActive v.calls) ready start
    (fun _ _ _ _ last meets moves => last.moves meets moves) (fun _ a last _ => last.unshared a) spares sequential

end

/-! ### Overlapping invokes -/

/-- Every returned result is of an execution of the invoke's code after the invoke's
    own block write, and different invokes have different executions. -/
def Justified (events : List Event) (calls : List Call) : Prop :=
  ∃ position : ℕ → ℕ,
    (∀ (i : ℕ) (call : Call) (r : AckResult), calls[i]? = some call → call.phase = .done (.result r) →
      (∃ n, events[position i]? = some (.executed call.code.toNat n r)) ∧
        ∃ p < position i, ∃ n, events[p]? = some (.wrote (.call i) call.code.toNat n)) ∧
    ∀ (i j : ℕ) (call other : Call) (r r' : AckResult), calls[i]? = some call → calls[j]? = some other →
      call.phase = .done (.result r) → other.phase = .done (.result r') → position i = position j → i = j

/-- The execution that serves a command is right after its block write, so it names the invoke. -/
theorem justified_of_served {events : List Event} {calls : List Call}
    (served : ∀ (i : ℕ) (call : Call) (r : AckResult), calls[i]? = some call → call.phase = .done (.result r) →
      ∃ n, Served events (.call i) call.code.toNat n r) : Justified events calls := by
  have located (i : ℕ) : ∃ p, ∀ (call : Call) (r : AckResult), calls[i]? = some call → call.phase = .done (.result r) →
      ∃ n, events[p]? = some (.wrote (.call i) call.code.toNat n) ∧
        events[p + 1]? = some (.executed call.code.toNat n r) := by
    cases found : calls[i]? with
    | none => exact ⟨0,fun call r there => by cases there⟩
    | some call =>
      by_cases returned : ∃ r, call.phase = .done (.result r)
      · obtain ⟨r,phase⟩ := returned
        obtain ⟨n,earlier,later,split⟩ := served i call r found phase
        refine ⟨earlier.length,fun call' r' there phase' => ?_⟩
        cases there
        cases phase.symm.trans phase'
        rw [split]
        exact ⟨n,by simp,by simp⟩
      · refine ⟨0,fun call' r' there phase' => ?_⟩
        cases there
        exact absurd ⟨r',phase'⟩ returned
  choose start holds using located
  refine ⟨fun i => start i + 1,fun i call r there phase => ?_,fun i j call other r r' hi hj one two same => ?_⟩
  · obtain ⟨n,wrote,executed⟩ := holds i call r there phase
    exact ⟨⟨n,executed⟩,start i,Nat.lt_succ_self _,n,wrote⟩
  · obtain ⟨n,wrote,_⟩ := holds i call r hi one
    obtain ⟨n',wrote',_⟩ := holds j other r' hj two
    have here : start i = start j := by simpa using same
    rw [here,wrote'] at wrote
    simp only [Option.some.injEq,Event.wrote.injEq,Author.call.injEq] at wrote
    exact wrote.1.symm

/-- Invokes of one gateway may overlap as long as no block goes out under a number
    that is already acknowledged or that another invoke waits for. -/
theorem overlapping_results_justified {plant : Plant} {w₀ w : World} {actions : List Action}
    (mapped : BlocksMapped plant.plc w₀.plc) (fresh : w₀.calls = []) (spares : ∀ a ∈ actions, Spares plant a)
    (noRogue : ∀ a ∈ actions, NoRogue a)
    (ownNumbers : Along (step plant) (Seen plant (fun v a => Unacknowledged v a ∧ Unshared v a)) w₀ actions)
    (reached : run (step plant) w₀ actions = some w) : Justified (trace plant w₀ actions) w.calls := by
  refine justified_of_served (run_attributed mapped fresh spares ?_ ?_ (undisputed_along noRogue) reached)
  · exact ownNumbers.imp fun _ _ meets v seen => (meets v seen).1
  · exact ownNumbers.imp fun _ _ meets v seen => (meets v seen).2

/-- The booted plant of the shipped contract, with a gateway that has not issued a command. -/
def shippedWorld : World where
  plc := Shipped.booted

theorem shippedWorld_mapped : BlocksMapped shipped.plc shippedWorld.plc :=
  (boot_regs tags_runnable Shipped.boot_booted).2.2.1

theorem overlapping_results_justified_shipped :
    let actions := [.call .start 0,.readAck 0,.send 0,.sendReturns 0,.scan (1 / 100),.call .stop 0,.readAck 1,.poll 0,
      .send 1,.sendReturns 1,.scan (1 / 100),.poll 1]
    ∃ w, run (step shipped) shippedWorld actions = some w ∧ Justified (trace shipped shippedWorld actions) w.calls := by
  intro actions
  obtain ⟨w,reached⟩ := Option.isSome_iff_exists.mp
    (by decide +kernel : (run (step shipped) shippedWorld actions).isSome)
  exact ⟨w,reached,overlapping_results_justified shippedWorld_mapped rfl (by decide +kernel) (by decide +kernel)
    (by decide +kernel) reached⟩

/-- Two invokes that read the same ack number write the same number, and the second
    block replaces the first, whose invoke returns the second one's result. -/
theorem overlapping_start_lost :
    let actions := [.call .start 0,.call .stop 0,.readAck 0,.readAck 1,.send 0,.sendReturns 0,.send 1,.sendReturns 1,
      .scan (1 / 100),.poll 0,.poll 1]
    (∀ a ∈ actions, NoRogue a) ∧ ∃ w, run (step shipped) shippedWorld actions = some w ∧
      w.calls.map (·.phase) = [.done (.result .ok),.done (.result .ok)] ∧
      ¬ Justified (trace shipped shippedWorld actions) w.calls := by
  intro actions
  have ends : (run (step shipped) shippedWorld actions).map (·.calls) =
      some [⟨.start,0,.done (.result .ok)⟩,⟨.stop,0,.done (.result .ok)⟩] := by decide +kernel
  have happens : trace shipped shippedWorld actions =
      [.wrote (.call 0) 1 1,.wrote (.call 1) 2 1,.executed 2 1 .ok] := by decide +kernel
  obtain ⟨w,reached,calls⟩ := Option.map_eq_some_iff.mp ends
  refine ⟨by decide,w,reached,by rw [calls]; rfl,?_⟩
  rintro ⟨position,justified,_⟩
  rw [calls,happens] at justified
  obtain ⟨⟨n,executed⟩,_⟩ := justified 0 _ .ok rfl rfl
  have member := List.mem_of_getElem? executed
  simp [CmdCode.toNat] at member

/-! ### Invokes one after another -/

/-- Beside another master an invoke returns the result of its own block, as long as
    every block goes out under a new number and the other master replaces no waiting
    number that is still unacknowledged. -/
theorem contended_results_served {plant : Plant} {w₀ w : World} {actions : List Action}
    (mapped : BlocksMapped plant.plc w₀.plc) (fresh : w₀.calls = []) (spares : ∀ a ∈ actions, Spares plant a)
    (sequential : Along (step plant) (Seen plant Sequential) w₀ actions)
    (ownNumbers : Along (step plant) (Seen plant (fun v a => Unacknowledged v a ∧ Undisputed v a)) w₀ actions)
    (reached : run (step plant) w₀ actions = some w) :
    ∀ (i : ℕ) (call : Call) (r : AckResult), w.calls[i]? = some call → call.phase = .done (.result r) →
      ∃ n, Served (trace plant w₀ actions) (.call i) call.code.toNat n r := by
  refine run_attributed mapped fresh spares ?_ (unshared_along mapped fresh spares sequential) ?_ reached
  · exact ownNumbers.imp fun _ _ meets v seen => (meets v seen).1
  · exact ownNumbers.imp fun _ _ meets v seen => (meets v seen).2

theorem contended_results_served_shipped :
    let actions := [.rogueRead .stop,.rogueWrite 0,.scan (1 / 100),.call .start 0,.readAck 0,.send 0,.sendReturns 0,
      .scan (1 / 100),.rogueRead .stop,.poll 0,.rogueWrite 0,.scan (1 / 100)]
    ∃ w, run (step shipped) shippedWorld actions = some w ∧
      ∀ (i : ℕ) (call : Call) (r : AckResult), w.calls[i]? = some call → call.phase = .done (.result r) →
        ∃ n, Served (trace shipped shippedWorld actions) (.call i) call.code.toNat n r := by
  intro actions
  obtain ⟨w,reached⟩ := Option.isSome_iff_exists.mp
    (by decide +kernel : (run (step shipped) shippedWorld actions).isSome)
  exact ⟨w,reached,contended_results_served shippedWorld_mapped rfl (by decide +kernel) (by decide +kernel)
    (by decide +kernel) reached⟩

/-- The other master's block under the same number replaces the invoke's own before the
    scan, and the invoke returns the result of the other master's command. -/
theorem borrowed_result :
    let actions := [.call .start 0,.readAck 0,.rogueRead .stop,.send 0,.sendReturns 0,.rogueWrite 0,.scan (1 / 100),
      .poll 0]
    Along (step shipped) (Seen shipped Sequential) shippedWorld actions ∧
      (run (step shipped) shippedWorld actions).map (·.calls) = some [⟨.start,0,.done (.result .ok)⟩] ∧
      trace shipped shippedWorld actions = [.wrote (.call 0) 1 1,.wrote .rogue 2 1,.executed 2 1 .ok] ∧
      ¬ ∃ n, Served (trace shipped shippedWorld actions) (.call 0) CmdCode.start.toNat n .ok := by
  intro actions
  have ends : (run (step shipped) shippedWorld actions).map (·.calls) =
      some [⟨.start,0,.done (.result .ok)⟩] := by decide +kernel
  have happens : trace shipped shippedWorld actions =
      [.wrote (.call 0) 1 1,.wrote .rogue 2 1,.executed 2 1 .ok] := by decide +kernel
  refine ⟨by decide +kernel,ends,happens,?_⟩
  rintro ⟨n,earlier,later,split⟩
  have member : .executed 1 n .ok ∈ trace shipped shippedWorld actions := by
    rw [split]
    simp [CmdCode.toNat]
  rw [happens] at member
  simp at member

/-- Without another master an invoke returns the result of its own block, whatever
    invokes before it timed out, as long as every block goes out under a number that
    is not acknowledged yet. -/
theorem sequential_results_served {plant : Plant} {w₀ w : World} {actions : List Action}
    (mapped : BlocksMapped plant.plc w₀.plc) (fresh : w₀.calls = []) (spares : ∀ a ∈ actions, Spares plant a)
    (noRogue : ∀ a ∈ actions, NoRogue a) (sequential : Along (step plant) (Seen plant Sequential) w₀ actions)
    (unacknowledged : Along (step plant) (Seen plant Unacknowledged) w₀ actions)
    (reached : run (step plant) w₀ actions = some w) :
    ∀ (i : ℕ) (call : Call) (r : AckResult), w.calls[i]? = some call → call.phase = .done (.result r) →
      ∃ n, Served (trace plant w₀ actions) (.call i) call.code.toNat n r :=
  run_attributed mapped fresh spares unacknowledged (unshared_along mapped fresh spares sequential)
    (undisputed_along noRogue) reached

theorem sequential_results_served_shipped :
    let actions := [.call .start 0,.readAck 0,.send 0,.sendReturns 0,.timeout 0,.scan (1 / 100),.call .stop 0,.readAck 1,
      .send 1,.sendReturns 1,.scan (1 / 100),.poll 1]
    ∃ w, run (step shipped) shippedWorld actions = some w ∧
      ∀ (i : ℕ) (call : Call) (r : AckResult), w.calls[i]? = some call → call.phase = .done (.result r) →
        ∃ n, Served (trace shipped shippedWorld actions) (.call i) call.code.toNat n r := by
  intro actions
  obtain ⟨w,reached⟩ := Option.isSome_iff_exists.mp
    (by decide +kernel : (run (step shipped) shippedWorld actions).isSome)
  exact ⟨w,reached,sequential_results_served shippedWorld_mapped rfl (by decide +kernel) (by decide +kernel)
    (by decide +kernel) (by decide +kernel) reached⟩

/-- A timed-out command is executed between a later invoke's ack read and its block
    write, under the number that the later invoke chose. -/
theorem stale_acknowledgement :
    let actions := [.call .start 0,.readAck 0,.send 0,.sendReturns 0,.timeout 0,.call .start 0,.readAck 1,.call .stop 0,
      .readAck 2,.scan (1 / 100),.send 2,.sendReturns 2,.poll 2]
    (∀ a ∈ actions, NoRogue a) ∧ Along (step shipped) (Seen shipped Sequential) shippedWorld actions ∧
      (run (step shipped) shippedWorld actions).map (·.calls) =
        some [⟨.start,0,.done .timeout⟩,⟨.start,0,.done (.contended 0 1)⟩,⟨.stop,0,.done (.result .ok)⟩] ∧
      trace shipped shippedWorld actions = [.wrote (.call 0) 1 1,.executed 1 1 .ok,.wrote (.call 2) 2 1] ∧
      ¬ ∃ n, Served (trace shipped shippedWorld actions) (.call 2) CmdCode.stop.toNat n .ok := by
  intro actions
  have ends : (run (step shipped) shippedWorld actions).map (·.calls) =
      some [⟨.start,0,.done .timeout⟩,⟨.start,0,.done (.contended 0 1)⟩,⟨.stop,0,.done (.result .ok)⟩] := by
    decide +kernel
  have happens : trace shipped shippedWorld actions =
      [.wrote (.call 0) 1 1,.executed 1 1 .ok,.wrote (.call 2) 2 1] := by decide +kernel
  refine ⟨by decide,by decide +kernel,ends,happens,?_⟩
  rintro ⟨n,earlier,later,split⟩
  have member : .executed 2 n .ok ∈ trace shipped shippedWorld actions := by
    rw [split]
    simp [CmdCode.toNat]
  rw [happens] at member
  simp at member

end MockPlant.Attribution
