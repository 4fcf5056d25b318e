import MockPlant.Changes
import MockPlant.StaleValues

/-!
The transitions of state machines. The gateway remembers of every state machine the code of
its last reading, and forgets it when the reading failed or its code is not declared. So a
transition is recorded exactly at a reading whose code is declared and was not that of the
reading before, and a machine's transitions are the changes of its codes, however often each
was polled and whatever was published of other signals meanwhile.
-/
namespace MockPlant.StateTransitions
open MockPlant.Python MockPlant.Contract MockPlant.Runs MockPlant.GatewayServer MockPlant.Publications
open MockPlant.StaleValues MockPlant.Changes

/-- The code of a reading, when it is a good one and the code is declared. -/
def declaredCode (states : List (ℤ × String)) (result : Option (List ℕ × Value)) : Option ℤ :=
  result.bind fun polled => polled.2.toInt.toOption.filter fun code => (states.lookup code).isSome

/-- The declared codes that were read of a signal, with nothing for each other reading. -/
def codes {ν : Type} {contract : Contract} (signal : Signal) (states : List (ℤ × String))
    (actions : List (Action ν contract)) : List (Option ℤ) :=
  actions.filterMap fun
    | .publish reading => if reading.signal = signal then some (declaredCode states reading.result) else none
    | _ => none

/-- The declared code of the signal's last reading, when there is a reading and it has one. -/
def previous {ν : Type} {contract : Contract} (signal : Signal) (states : List (ℤ × String))
    (actions : List (Action ν contract)) : Option ℤ :=
  (codes signal states actions).getLastD none

/-- The codes of the states that the transitions of a name lead to. -/
def recorded (name : String) (transitions : List (String × ℤ)) : List ℤ :=
  (transitions.filter fun transition => transition.1 = name).map (·.2)

theorem codes_append {ν : Type} {contract : Contract} (signal : Signal) (states : List (ℤ × String))
    (first second : List (Action ν contract)) :
    codes signal states (first ++ second) = codes signal states first ++ codes signal states second := by
  simp [codes]

theorem recorded_append (name : String) (first second : List (String × ℤ)) :
    recorded name (first ++ second) = recorded name first ++ recorded name second := by
  simp [recorded]

theorem recorded_own (name : String) (code : Option ℤ) :
    recorded name (code.map (fun c => (name,c))).toList = code.toList := by
  cases code <;> simp [recorded]

theorem recorded_other {name other : String} (different : other ≠ name) (code : Option ℤ) :
    recorded name (code.map (fun c => (other,c))).toList = [] := by
  cases code <;> simp [recorded,different]

section
variable {ν : Type} [DecidableEq ν] (gateway : Gateway ν) (s : State ν)

/-! ### What a publication remembers and records -/

theorem setSignal_transitions (node : ν) (datavalue : DataValue) :
    (setSignal gateway s node datavalue).1.lastStateCode = s.lastStateCode ∧
      (setSignal gateway s node datavalue).1.transitions = s.transitions := by
  unfold setSignal
  split_ifs
  · cases accept gateway s node datavalue <;> exact ⟨rfl,rfl⟩
  · exact ⟨rfl,rfl⟩

theorem writeAttributeValue_transitions (node : ν) (datavalue : DataValue) :
    (writeAttributeValue gateway s node datavalue).1.lastStateCode = s.lastStateCode ∧
      (writeAttributeValue gateway s node datavalue).1.transitions = s.transitions := by
  unfold writeAttributeValue
  split_ifs
  · exact setSignal_transitions gateway s node datavalue
  · exact ⟨rfl,rfl⟩

/-- An ordinary signal has no code and no transitions. -/
theorem publish_ordinary {reading : Reading gateway.contract} (ordinary : reading.signal.opcua.states = none) :
    (publish gateway s reading).1.lastStateCode = s.lastStateCode ∧
      (publish gateway s reading).1.transitions = s.transitions := by
  simp only [publish,ordinary,nodeIds_listed gateway reading.listed]
  cases reading.result <;> exact writeAttributeValue_transitions gateway _ _ _

/-- What `_publish_state` does with a reading that it does not raise over. -/
theorem publish_state {reading : Reading gateway.contract} {states : List (ℤ × String)}
    (declares : reading.signal.opcua.states = some states) (coded : ¬ Uncoded reading) :
    (publish gateway s reading).1.lastStateCode =
        Function.update s.lastStateCode reading.signal.name (declaredCode states reading.result) ∧
      (publish gateway s reading).1.transitions = s.transitions ++
        ((change (s.lastStateCode reading.signal.name) (declaredCode states reading.result)).map
          fun code => (reading.signal.name,code)).toList ∧
      ∀ code, declaredCode states reading.result = some code →
        (publish gateway s reading).2 = .ok () ∧ ∃ state, states.lookup code = some state ∧
          (publish gateway s reading).1.values (gateway.nodeId reading.signal) = some { value := some (.text state) } := by
  obtain ⟨result,published⟩ | ⟨polled,result,outcome⟩ := publish_outcomes gateway s declares
  · have none : declaredCode states reading.result = none := by rw [result]; rfl
    rw [published,none]
    simp [writeAttributeValue_transitions gateway _ (gateway.nodeId reading.signal) badValue,change]
  · obtain ⟨e,integer,_⟩ | ⟨code,integer,outcome⟩ := outcome
    · have declared : reading.signal.opcua.states.isSome := by
        rw [declares]
        rfl
      exact absurd ((uncoded_iff declared result).mpr ⟨e,integer⟩) coded
    · have read : declaredCode states reading.result =
          if (states.lookup code).isSome = true then some code else none := by
        simp only [result,declaredCode,Option.bind_some,integer,Except.toOption,Option.filter_some]
      obtain ⟨known,published⟩ | ⟨state,known,changed⟩ := outcome
      · rw [known] at read
        rw [published,read]
        simp [writeAttributeValue_transitions gateway _ (gateway.nodeId reading.signal) badValue,change]
      · rw [known] at read
        rw [changed,read]
        refine ⟨rfl,?_,?_⟩
        · by_cases same : s.lastStateCode reading.signal.name = some code <;>
            simp [State.changeState,State.store,change,same]
        · rintro code' ⟨⟩
          exact ⟨rfl,state,known,by simp [State.changeState,State.store]⟩

/-- Over a reading without a code it raises before it remembers or records anything. -/
theorem publish_raising {reading : Reading gateway.contract} {states : List (ℤ × String)}
    (declares : reading.signal.opcua.states = some states) (uncoded : Uncoded reading) :
    (publish gateway s reading).1.lastStateCode = s.lastStateCode ∧
      (publish gateway s reading).1.transitions = s.transitions := by
  obtain ⟨declared,words,value,good,_⟩ := id uncoded
  obtain ⟨e,integer⟩ := (uncoded_iff declared good).mp uncoded
  obtain ⟨failed,_⟩ | ⟨polled,result,⟨_,_,raised⟩ | ⟨code,integer',_⟩⟩ := publish_outcomes gateway s declares
  · cases good.symm.trans failed
  · rw [raised]
    exact ⟨rfl,rfl⟩
  · cases good.symm.trans result
    cases integer.symm.trans integer'

end

/-! ### Runs -/

section
variable {ν : Type} [DecidableEq ν] {gateway : Gateway ν} {w₀ w : Server ν}
  {actions : List (Action ν gateway.contract)} {signal : Signal} {states : List (ℤ × String)}

/-- A publication adds only to the transitions of its own signal, and remembers only its code. -/
theorem publish_other_signal (s : State ν) {reading : Reading gateway.contract} (listed : signal ∈ gateway.contract.signals)
    (other : reading.signal ≠ signal) :
    (publish gateway s reading).1.lastStateCode signal.name = s.lastStateCode signal.name ∧
      recorded signal.name (publish gateway s reading).1.transitions = recorded signal.name s.transitions := by
  have names := List.inj_on_of_nodup_map (names_distinct (validate_ok gateway.valid).2.1)
  have different : reading.signal.name ≠ signal.name := fun equal => other (names reading.listed listed equal)
  cases declares : reading.signal.opcua.states with
  | none =>
    obtain ⟨codes,transitions⟩ := publish_ordinary gateway s declares
    rw [codes,transitions]
    exact ⟨rfl,rfl⟩
  | some states =>
    by_cases coded : Uncoded reading
    · obtain ⟨codes,transitions⟩ := publish_raising gateway s declares coded
      rw [codes,transitions]
      exact ⟨rfl,rfl⟩
    · obtain ⟨codes,transitions,_⟩ := publish_state gateway s declares coded
      rw [codes,transitions,recorded_append,recorded_other different,Function.update_of_ne different.symm,List.append_nil]
      exact ⟨rfl,rfl⟩

/-- After a run a state machine's last code is remembered, and the changes of its codes are recorded. -/
structure Recorded (signal : Signal) (states : List (ℤ × String)) (w₀ : Server ν)
    (actions : List (Action ν gateway.contract)) (w : Server ν) : Prop where
  remembers : w.state.lastStateCode signal.name = previous signal states actions
  records : recorded signal.name w.state.transitions =
    recorded signal.name w₀.state.transitions ++ changes none (codes signal states actions)

/-- The signal's good readings have codes. -/
def Coded (signal : Signal) (actions : List (Action ν gateway.contract)) : Prop :=
  ∀ reading, .publish reading ∈ actions → reading.signal = signal → ¬ Uncoded reading

omit [DecidableEq ν] in
/-- Only publications read, remember and record. -/
theorem Recorded.quiet {a : Action ν gateway.contract} {w' : Server ν} (before : Recorded signal states w₀ actions w)
    (read : codes signal states [a] = []) (remembered : w'.state.lastStateCode = w.state.lastStateCode)
    (transitions : w'.state.transitions = w.state.transitions) : Recorded signal states w₀ (actions ++ [a]) w' := by
  constructor
  · rw [remembered,previous,codes_append,read,List.append_nil]
    exact before.remembers
  · rw [transitions,codes_append,read,List.append_nil]
    exact before.records

theorem Recorded.publish {reading : Reading gateway.contract} (before : Recorded signal states w₀ actions w)
    (listed : signal ∈ gateway.contract.signals) (declares : signal.opcua.states = some states)
    (coded : reading.signal = signal → ¬ Uncoded reading) :
    Recorded signal states w₀ (actions ++ [.publish reading]) { w with state := (publish gateway w.state reading).1 } := by
  by_cases own : reading.signal = signal
  · subst own
    have read : codes reading.signal states [Action.publish (ν := ν) reading] = [declaredCode states reading.result] := by
      simp [codes]
    obtain ⟨remembered,transitions,_⟩ := publish_state gateway w.state declares (coded rfl)
    constructor
    · simp [remembered,previous,codes_append,read]
    · simp only [transitions,recorded_append,recorded_own,before.records,before.remembers,codes_append,read,changes_append,
        changes,List.append_nil,List.append_assoc]
      rfl
  · have read : codes signal states [Action.publish (ν := ν) reading] = [] := by simp [codes,own]
    obtain ⟨remembered,transitions⟩ := publish_other_signal w.state listed own
    constructor
    · simp only [remembered,before.remembers,previous,codes_append,read,List.append_nil]
    · simp only [transitions,before.records,codes_append,read,List.append_nil]

theorem run_recorded (fresh : w₀.state.lastStateCode signal.name = none) (listed : signal ∈ gateway.contract.signals)
    (declares : signal.opcua.states = some states) (coded : Coded signal actions)
    (reached : run (step gateway) w₀ actions = some w) : Recorded signal states w₀ actions w := by
  refine run_induction (P := fun actions w => Coded signal actions → Recorded signal states w₀ actions w) ?_ ?_
    actions w reached coded
  · intro _
    exact ⟨fresh,(List.append_nil _).symm⟩
  · intro actions w a w' _ ih moved coded
    have before := ih fun reading member => coded reading (List.mem_append_left _ member)
    cases a with
    | request items =>
      cases moved
      exact before.quiet rfl (by rw [proceed_state]; rfl) (by rw [proceed_state]; rfl)
    | next =>
      obtain ⟨remembered,transitions⟩ :
          w'.state.lastStateCode = w.state.lastStateCode ∧ w'.state.transitions = w.state.transitions := by
        obtain ⟨item,_,_,⟨_,_,_,rfl⟩ | ⟨_,rfl⟩⟩ := step_next_cases gateway moved <;> rw [proceed_state]
        · exact setSignal_transitions gateway w.state _ _
        · exact ⟨rfl,rfl⟩
      exact before.quiet rfl remembered transitions
    | publish reading =>
      cases moved
      exact before.publish listed declares (coded reading (by simp))

/-- After a run the next reading of a state machine whose code is declared gives the node the
    name of its state, and it is recorded with that code exactly when the reading before it
    was not one of the same declared code. Over a stretch of readings with declared codes
    the codes recorded, after the code before the stretch, are those read without repetitions. -/
theorem transitions_on_changes (fresh : w₀.state.lastStateCode signal.name = none)
    (listed : signal ∈ gateway.contract.signals) (declares : signal.opcua.states = some states)
    (coded : Coded signal actions) (reached : run (step gateway) w₀ actions = some w) :
    (∀ reading, reading.signal = signal → ¬ Uncoded reading →
      (∀ code, declaredCode states reading.result = some code →
        (publish gateway w.state reading).2 = .ok () ∧ ∃ state, states.lookup code = some state ∧
          (publish gateway w.state reading).1.values (gateway.nodeId signal) = some { value := some (.text state) }) ∧
      ∃ transition, (publish gateway w.state reading).1.transitions =
          w.state.transitions ++ (transition.map fun code => (signal.name,code)).toList ∧
        ∀ code, transition = some code ↔
          declaredCode states reading.result = some code ∧ previous signal states actions ≠ some code) ∧
    ∀ earlier stretch t good, actions = earlier ++ stretch → run (step gateway) w₀ earlier = some t →
      codes signal states stretch = good.map some →
        ∃ added, recorded signal.name w.state.transitions = recorded signal.name t.state.transitions ++ added ∧
          (previous signal states earlier).toList ++ added =
            ((previous signal states earlier).toList ++ good).destutter (· ≠ ·) := by
  have after := run_recorded fresh listed declares coded reached
  constructor
  · rintro reading rfl readable
    obtain ⟨_,transitions,shows⟩ := publish_state gateway w.state declares readable
    rw [after.remembers] at transitions
    exact ⟨shows,_,transitions,fun code => change_eq_some⟩
  · rintro earlier stretch t good rfl before declared
    have here := run_recorded fresh listed declares (fun reading member => coded reading (List.mem_append_left _ member)) before
    refine ⟨changes (previous signal states earlier) (good.map some),?_,changes_stretch _ good⟩
    rw [after.records,codes_append,changes_append,declared,here.records,List.append_assoc]
    rfl

end

/-! ### The shipped CNC -/

def cncReading (result : Option (List ℕ × Value)) : Reading shippedGateway.contract where
  signal := Shipped.cncState
  listed := by decide +kernel
  result := result

theorem cncReading_coded (words : List ℕ) (code : ℤ) : ¬ Uncoded (cncReading (some (words,.int code))) := by
  rintro ⟨_,words',value,result,special⟩
  cases result
  cases special

/-- The start of a cycle with a poll that fails in the middle of it. -/
theorem cnc_transitions :
    let first : List (Action String shippedGateway.contract) := [.publish (cncReading (some ([0],.int 0))),
      .publish (setpointReading none),.publish (cncReading none)]
    let stretch : List (Action String shippedGateway.contract) := [.publish (cncReading (some ([1],.int 1))),
      .publish (cncReading (some ([1],.int 1))),.publish (cncReading (some ([2],.int 2)))]
    ∃ t w added, run (step shippedGateway) {} first = some t ∧ run (step shippedGateway) {} (first ++ stretch) = some w ∧
      recorded "Cnc.State" w.state.transitions = recorded "Cnc.State" t.state.transitions ++ added ∧ added = [1,2] := by
  intro first stretch
  obtain ⟨t,before⟩ := Option.isSome_iff_exists.mp (by decide +kernel : (run (step shippedGateway) {} first).isSome)
  obtain ⟨w,reached⟩ := Option.isSome_iff_exists.mp
    (by decide +kernel : (run (step shippedGateway) {} (first ++ stretch)).isSome)
  have coded : Coded Shipped.cncState (first ++ stretch) := by
    intro reading member _
    simp only [first,stretch,List.cons_append,List.nil_append,List.mem_cons,Action.publish.injEq,List.not_mem_nil,
      or_false] at member
    rcases member with rfl | rfl | rfl | rfl | rfl | rfl
    · exact cncReading_coded _ _
    · rintro ⟨_,words,value,result,_⟩
      cases result
    · rintro ⟨_,words,value,result,_⟩
      cases result
    · exact cncReading_coded _ _
    · exact cncReading_coded _ _
    · exact cncReading_coded _ _
  obtain ⟨added,recorded,compressed⟩ := (transitions_on_changes rfl (by decide +kernel) rfl coded reached).2 first stretch t
    [1,1,2] rfl before (by decide +kernel)
  have forgotten : previous Shipped.cncState Shipped.cncStates first = none := by decide +kernel
  rw [forgotten] at compressed
  exact ⟨t,w,added,before,reached,recorded,compressed⟩

end MockPlant.StateTransitions
