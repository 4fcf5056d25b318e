import MockPlant.Publications

/-!
Stale values. While clients' marks are used up by the items that put them on, a
publication shows its reading and the setter lets a client's write through exactly after
a good one, so the failure of a poll stands until the next poll. The one reading that is
not shown is a good one of a state machine whose value `int` does not take: the
publication raises and the last good state stays.
-/
namespace MockPlant.StaleValues
open MockPlant.Python MockPlant.Contract MockPlant.Codec MockPlant.Runs MockPlant.GatewayServer MockPlant.Publications

/-! ### What a reading is to show -/

/-- The reading's value, the name of its state when the code is declared, and a bad status
    with no value otherwise. -/
def shown {contract : Contract} (reading : Reading contract) : DataValue :=
  match reading.result with
  | none => badValue
  | some (_,value) =>
    match reading.signal.opcua.states with
    | none => { value := some (.plain value) }
    | some states =>
      match value.toInt with
      | .error _ => badValue
      | .ok code =>
        match states.lookup code with
        | none => badValue
        | some state => { value := some (.text state) }

/-- A good reading of a state machine that is infinite or not a number. -/
def Uncoded {contract : Contract} (reading : Reading contract) : Prop :=
  reading.signal.opcua.states.isSome ∧ ∃ words value, reading.result = some (words,value) ∧ value.toFloat.rat? = none

theorem toInt_error_iff (value : Value) : (∃ e, value.toInt = .error e) ↔ value.toFloat.rat? = none := by
  cases value with
  | bool | int => simp [Value.toInt,Value.toFloat,PyFloat.rat?]
  | float x => cases x <;> simp [Value.toInt,PyFloat.toInt,Value.toFloat,PyFloat.rat?]

theorem uncoded_iff {contract : Contract} {reading : Reading contract} {polled : List ℕ × Value}
    (declares : reading.signal.opcua.states.isSome) (result : reading.result = some polled) :
    Uncoded reading ↔ ∃ e, polled.2.toInt = .error e := by
  rw [toInt_error_iff]
  constructor
  · rintro ⟨_,words,value,good,special⟩
    cases result.symm.trans good
    exact special
  · intro special
    exact ⟨declares,polled.1,polled.2,result,special⟩

section
variable {ν : Type} [DecidableEq ν] (gateway : Gateway ν) (s : State ν)

/-! ### Publications -/

theorem writeAttributeValue_unmarked {node : ν} (unmarked : node ∉ s.externalWrites) (datavalue : DataValue) :
    writeAttributeValue gateway s node datavalue = (s.store node datavalue,.ok ()) := by
  unfold writeAttributeValue setSignal
  split_ifs <;> rfl

theorem setSignal_lastWords (node : ν) (datavalue : DataValue) :
    (setSignal gateway s node datavalue).1.lastWords = s.lastWords := by
  unfold setSignal
  split_ifs
  · cases accept gateway s node datavalue <;> rfl
  · rfl

/-- A publication records the registers of its reading. Then it raises, when it comes to
    what `int` does not take, or gives the node what the reading shows: with a write, or
    for a state of a state machine with its change. -/
theorem publish_cases (reading : Reading gateway.contract) : ∃ t : State ν,
    t.lastWords = Function.update s.lastWords reading.signal.name (reading.result.map (·.1)) ∧ t.values = s.values ∧
    t.externalWrites = s.externalWrites ∧
    (Uncoded reading ∧ shown reading = badValue ∧ (∃ e, publish gateway s reading = (t,.error e)) ∨
      ¬ Uncoded reading ∧
        (publish gateway s reading = writeAttributeValue gateway t (gateway.nodeId reading.signal) (shown reading) ∨
          publish gateway s reading = (t.store (gateway.nodeId reading.signal) (shown reading),.ok ()))) := by
  have node := nodeIds_listed gateway reading.listed
  set name := reading.signal.name with named
  cases declared : reading.signal.opcua.states with
  | none =>
    have coded : ¬ Uncoded reading := by
      rintro ⟨declares,_⟩
      rw [declared] at declares
      cases declares
    refine ⟨{ s with lastWords := Function.update s.lastWords name (reading.result.map (·.1)) },rfl,rfl,rfl,
      .inr ⟨coded,.inl ?_⟩⟩
    cases result : reading.result <;> simp [publish,declared,node,result,shown,← named]
  | some states =>
    obtain ⟨result,published⟩ | ⟨polled,result,outcome⟩ := publish_outcomes gateway s declared
    · have coded : ¬ Uncoded reading := by
        rintro ⟨_,words,value,good,_⟩
        cases result.symm.trans good
      refine ⟨{ s with
        lastWords := Function.update s.lastWords name none
        lastStateCode := Function.update s.lastStateCode name none },by rw [result]; rfl,rfl,rfl,.inr ⟨coded,.inl ?_⟩⟩
      simpa [shown,result] using published
    · have uncoded := uncoded_iff (by rw [declared]; rfl) result
      obtain ⟨e,integer,raised⟩ | ⟨code,integer,outcome⟩ := outcome
      · refine ⟨{ s with lastWords := Function.update s.lastWords name (some polled.1) },by rw [result]; rfl,rfl,rfl,
          .inl ⟨uncoded.mpr ⟨e,integer⟩,?_,e,raised⟩⟩
        simp [shown,declared,result,integer]
      · have coded : ¬ Uncoded reading := by
          rw [uncoded,integer]
          rintro ⟨e,raised⟩
          cases raised
        obtain ⟨known,published⟩ | ⟨state,known,changed⟩ := outcome
        · refine ⟨{ s with
            lastWords := Function.update s.lastWords name (some polled.1)
            lastStateCode := Function.update s.lastStateCode name none },by rw [result]; rfl,rfl,rfl,.inr ⟨coded,.inl ?_⟩⟩
          simpa [shown,declared,result,integer,known] using published
        · refine ⟨{ s with
            lastWords := Function.update s.lastWords name (some polled.1)
            lastStateCode := Function.update s.lastStateCode name (some code)
            transitions := if s.lastStateCode name ≠ some code then s.transitions ++ [(name,code)] else s.transitions },
            by rw [result]; rfl,rfl,rfl,.inr ⟨coded,.inr ?_⟩⟩
          simpa [shown,declared,result,integer,known,State.changeState] using changed

/-- Whatever becomes of a publication, it records the registers of its reading. -/
theorem publish_lastWords (reading : Reading gateway.contract) : (publish gateway s reading).1.lastWords =
    Function.update s.lastWords reading.signal.name (reading.result.map (·.1)) := by
  obtain ⟨t,recorded,_,_,⟨_,_,e,raised⟩ | ⟨_,written | changed⟩⟩ := publish_cases gateway s reading
  · rw [raised,recorded]
  · rw [written,writeAttributeValue]
    split_ifs
    · rw [setSignal_lastWords,recorded]
    · exact recorded
  · rw [changed]
    exact recorded

/-- At a node without a mark a publication shows its reading. -/
theorem publish_values {reading : Reading gateway.contract}
    (unmarked : gateway.nodeId reading.signal ∉ s.externalWrites) (coded : ¬ Uncoded reading) :
    (publish gateway s reading).1.values =
      Function.update s.values (gateway.nodeId reading.signal) (some (shown reading)) := by
  obtain ⟨t,_,values,marks,⟨uncoded,_⟩ | ⟨_,written | changed⟩⟩ := publish_cases gateway s reading
  · exact absurd uncoded coded
  · rw [written,writeAttributeValue_unmarked gateway t (by rwa [marks]),← values]
    rfl
  · rw [changed,← values]
    rfl

/-- What `int` does not take is not published. -/
theorem publish_uncoded {reading : Reading gateway.contract} (uncoded : Uncoded reading) :
    (publish gateway s reading).1.values = s.values ∧ shown reading = badValue := by
  obtain ⟨t,_,values,_,⟨_,bad,e,raised⟩ | ⟨coded,_⟩⟩ := publish_cases gateway s reading
  · rw [raised]
    exact ⟨values,bad⟩
  · exact absurd uncoded coded

/-- A publication at a node without a mark leaves its reading shown unless it raises over
    another value. -/
theorem publish_shown_iff {reading : Reading gateway.contract}
    (unmarked : gateway.nodeId reading.signal ∉ s.externalWrites) :
    (publish gateway s reading).1.values (gateway.nodeId reading.signal) = some (shown reading) ↔
      (Uncoded reading → s.values (gateway.nodeId reading.signal) = some badValue) := by
  by_cases uncoded : Uncoded reading
  · obtain ⟨kept,bad⟩ := publish_uncoded gateway s uncoded
    rw [kept,bad]
    exact ⟨fun here _ => here,fun here => here uncoded⟩
  · rw [publish_values gateway s unmarked uncoded,Function.update_self]
    exact ⟨fun _ uncoded' => absurd uncoded' uncoded,fun _ => rfl⟩

/-- Other nodes keep their values. -/
theorem publish_values_other {reading : Reading gateway.contract}
    (unmarked : gateway.nodeId reading.signal ∉ s.externalWrites) {node : ν}
    (other : node ≠ gateway.nodeId reading.signal) : (publish gateway s reading).1.values node = s.values node := by
  by_cases uncoded : Uncoded reading
  · rw [(publish_uncoded gateway s uncoded).1]
  · rw [publish_values gateway s unmarked uncoded,Function.update_of_ne other]

/-! ### Clients' writes -/

theorem setSignal_values_other {node other : ν} (datavalue : DataValue) (different : other ≠ node) :
    (setSignal gateway s node datavalue).1.values other = s.values other := by
  unfold setSignal
  split_ifs
  · cases accept gateway s node datavalue with
    | ok push => exact Function.update_of_ne different _ _
    | error e => rfl
  · exact Function.update_of_ne different _ _

/-- Before a good reading of its signal a client's write is refused, and nothing is stored or pushed. -/
theorem setSignal_refused {signal : Signal} (listed : signal ∈ gateway.contract.signals)
    (marked : gateway.nodeId signal ∈ s.externalWrites) (unconfirmed : s.lastWords signal.name = none)
    (datavalue : DataValue) : setSignal gateway s (gateway.nodeId signal) datavalue =
      ({ s with externalWrites := s.externalWrites.erase (gateway.nodeId signal) },.error badWaitingForInitialData) := by
  have refused : accept gateway s (gateway.nodeId signal) datavalue = .error badWaitingForInitialData := by
    simp [accept,byNodeId_listed gateway listed,unconfirmed,bind,Except.bind]
  rw [setSignal,if_pos marked]
  simp only [refused]

/-- After one, a client's value that can be encoded is accepted. -/
theorem setSignal_accepted {signal : Signal} (listed : signal ∈ gateway.contract.signals)
    (marked : gateway.nodeId signal ∈ s.externalWrites) (confirmed : (s.lastWords signal.name).isSome)
    {datavalue : DataValue} {words : List ℕ}
    (encoded : encodeValue signal.modbus datavalue gateway.contract.metadata = .ok words) :
    (setSignal gateway s (gateway.nodeId signal) datavalue).2 = .ok () := by
  obtain ⟨polled,found⟩ := Option.isSome_iff_exists.mp confirmed
  have accepts : accept gateway s (gateway.nodeId signal) datavalue = .ok ⟨signal,words⟩ := by
    simp [accept,byNodeId_listed gateway listed,found,encoded,bind,Except.bind]
  rw [setSignal,if_pos marked]
  simp only [accepts]

end

/-! ### Orderly runs -/

section
variable {ν : Type} [DecidableEq ν] (gateway : Gateway ν)

/-- What the latest publication of a signal read, when there has been one. -/
def lastReading {contract : Contract} (signal : Signal) (actions : List (Action ν contract)) :
    Option (Option (List ℕ × Value)) :=
  actions.foldl (fun last a =>
    match a with
    | .publish reading => if reading.signal = signal then some reading.result else last
    | _ => last) none

/-- The setter takes the item at hand, unless it is the last of its request. -/
def goesOn (w : Server ν) : Bool :=
  match w.pending with
  | item :: _ :: _ => (setSignal gateway w.state item.node item.datavalue).2.toOption.isSome
  | _ => true

/-- A request names no node twice and its items all come to the setter, before there is
    another request or a publication. -/
def Orderly (w : Server ν) : Action ν gateway.contract → Prop
  | .request items => w.pending = [] ∧ (items.map (·.node)).Nodup ∧ ∀ item ∈ items, item.reaches gateway = true
  | .publish _ => w.pending = []
  | .next => goesOn gateway w = true

instance : ∀ (w : Server ν) (a : Action ν gateway.contract), Decidable (Orderly gateway w a)
  | w, .request items => inferInstanceAs (Decidable
      (w.pending = [] ∧ (items.map (·.node)).Nodup ∧ ∀ item ∈ items, item.reaches gateway = true))
  | w, .publish _ => inferInstanceAs (Decidable (w.pending = []))
  | w, .next => inferInstanceAs (Decidable (goesOn gateway w = true))

/-- After the actions the marks are those of the items to come, the registers recorded are
    those last read, and a failed reading stands at its node. -/
structure Steady (actions : List (Action ν gateway.contract)) (w : Server ν) : Prop where
  alone : w.waiting = []
  marks : w.state.externalWrites = (w.pending.map (·.node)).toFinset
  distinct : (w.pending.map (·.node)).Nodup
  reaches : ∀ item ∈ w.pending, item.reaches gateway = true
  words : ∀ signal ∈ gateway.contract.signals, ∀ result, lastReading signal actions = some result →
    w.state.lastWords signal.name = result.map (·.1)
  failed : ∀ signal ∈ gateway.contract.signals, lastReading signal actions = some none →
    w.state.values (gateway.nodeId signal) = some badValue

variable {gateway} {actions : List (Action ν gateway.contract)} {w : Server ν}

/-- A request that comes to an idle server is at hand at once. -/
theorem step_request_settled {items : List (WriteItem ν)} {w' : Server ν} (settled : w.pending = [])
    (moved : step gateway w (.request items) = some w') :
    w' = { state := markExternalWrite w.state true (items.map (·.node)), pending := items } := by
  simp only [step,settled,w.idle settled,List.nil_append,proceed_single,Option.some.injEq] at moved
  exact moved.symm

/-- An item that comes to the setter and does not cut its request short. -/
theorem step_next_goesOn {item : WriteItem ν} {rest : List (WriteItem ν)} {w' : Server ν} (alone : w.waiting = [])
    (pending : w.pending = item :: rest) (reaches : item.reaches gateway = true) (goes : goesOn gateway w = true)
    (moved : step gateway w .next = some w') :
    w' = { state := (setSignal gateway w.state item.node item.datavalue).1, pending := rest } := by
  simp only [step,pending,reaches,if_true,alone,proceed_alone,Option.some.injEq] at moved
  subst moved
  cases rest with
  | nil => split_ifs <;> rfl
  | cons =>
    simp only [goesOn,pending] at goes
    rw [if_pos goes]

theorem Steady.request {items : List (WriteItem ν)} (steady : Steady gateway actions w) (settled : w.pending = [])
    (distinct : (items.map (·.node)).Nodup) (reaches : ∀ item ∈ items, item.reaches gateway = true) :
    Steady gateway (actions ++ [.request items])
      { state := markExternalWrite w.state true (items.map (·.node)), pending := items } := by
  have unmarked : w.state.externalWrites = ∅ := by rw [steady.marks,settled]; rfl
  have last (signal : Signal) : lastReading signal (actions ++ [.request items]) = lastReading signal actions := by
    simp [lastReading]
  constructor
  · rfl
  · simp [markExternalWrite,unmarked]
  · exact distinct
  · exact reaches
  · intro signal listed result found
    rw [last] at found
    exact steady.words signal listed result found
  · intro signal listed found
    rw [last] at found
    exact steady.failed signal listed found

/-- The nodes of pending items are of signals, which the setter writes by their own rules. -/
theorem Steady.next {item : WriteItem ν} {rest : List (WriteItem ν)} (steady : Steady gateway actions w)
    (pending : w.pending = item :: rest) : Steady gateway (actions ++ [.next])
      { state := (setSignal gateway w.state item.node item.datavalue).1, pending := rest } := by
  have last (signal : Signal) : lastReading signal (actions ++ [.next]) = lastReading signal actions := by
    simp [lastReading]
  have distinct := steady.distinct
  rw [pending,List.map_cons,List.nodup_cons] at distinct
  have marks := steady.marks
  rw [pending,List.map_cons,List.toFinset_cons] at marks
  have absent : item.node ∉ (rest.map (·.node)).toFinset := fun member => distinct.1 (List.mem_toFinset.mp member)
  have marked : item.node ∈ w.state.externalWrites := by
    rw [marks]
    exact Finset.mem_insert_self _ _
  constructor
  · rfl
  · rw [setSignal_externalWrites,marks,Finset.erase_insert absent]
  · exact distinct.2
  · intro other member
    exact steady.reaches other (pending ▸ List.mem_cons_of_mem _ member)
  · intro signal listed result found
    rw [last] at found
    rw [setSignal_lastWords]
    exact steady.words signal listed result found
  · intro signal listed found
    rw [last] at found
    by_cases own : gateway.nodeId signal = item.node
    · -- The last reading failed, so this item is refused.
      have unconfirmed := steady.words signal listed none found
      rw [← own,setSignal_refused gateway w.state listed (own ▸ marked) unconfirmed]
      exact steady.failed signal listed found
    · rw [setSignal_values_other gateway w.state _ own]
      exact steady.failed signal listed found

theorem Steady.publish {reading : Reading gateway.contract} (steady : Steady gateway actions w) (settled : w.pending = []) :
    Steady gateway (actions ++ [.publish reading]) { w with state := (publish gateway w.state reading).1 } := by
  have unmarked : w.state.externalWrites = ∅ := by rw [steady.marks,settled]; rfl
  have node : gateway.nodeId reading.signal ∉ w.state.externalWrites := by
    rw [unmarked]
    exact Finset.notMem_empty _
  have last (signal : Signal) : lastReading signal (actions ++ [.publish reading]) =
      if reading.signal = signal then some reading.result else lastReading signal actions := by
    simp [lastReading]
  constructor
  · exact steady.alone
  · cases settable : writable reading.signal with
    | true =>
      obtain ⟨datavalue,call⟩ := publish_writable gateway w.state reading settable
      simp [call,setSignal_externalWrites,unmarked,settled]
    | false => simp [publish_other gateway w.state reading settable,unmarked,settled]
  · exact steady.distinct
  · exact steady.reaches
  · intro signal listed result found
    rw [last] at found
    simp only [publish_lastWords]
    by_cases same : reading.signal = signal
    · subst same
      rw [if_pos rfl,Option.some.injEq] at found
      rw [found,Function.update_self]
    · have names := List.inj_on_of_nodup_map (names_distinct (validate_ok gateway.valid).2.1)
      have other : signal.name ≠ reading.signal.name := fun equal => same (names listed reading.listed equal).symm
      rw [if_neg same] at found
      rw [Function.update_of_ne other]
      exact steady.words signal listed result found
  · intro signal listed found
    rw [last] at found
    by_cases same : reading.signal = signal
    · subst same
      rw [if_pos rfl,Option.some.injEq] at found
      have coded : ¬ Uncoded reading := by
        rintro ⟨_,words,value,good,_⟩
        rw [found] at good
        cases good
      simp only [publish_values gateway w.state node coded,Function.update_self,shown,found]
    · have other : gateway.nodeId signal ≠ gateway.nodeId reading.signal :=
        fun equal => same (gateway.apart signal listed _ reading.listed equal).symm
      rw [if_neg same] at found
      simp only [publish_values_other gateway w.state node other]
      exact steady.failed signal listed found

/-- Every orderly run is steady. -/
theorem run_steady {w₀ : Server ν} (unmarked : w₀.state.externalWrites = ∅) (settled : w₀.pending = [])
    (orderly : Along (step gateway) (Orderly gateway) w₀ actions) (reached : run (step gateway) w₀ actions = some w) :
    Steady gateway actions w := by
  refine run_induction (P := fun actions w => Along (step gateway) (Orderly gateway) w₀ actions →
    Steady gateway actions w) ?_ ?_ actions w reached orderly
  · intro _
    refine ⟨w₀.idle settled,by simp [unmarked,settled],by simp [settled],by simp [settled],?_,?_⟩
    · intro signal _ result found
      cases found
    · intro signal _ found
      cases found
  · intro actions w a w' before ih moved orderly
    obtain ⟨earlier,here⟩ := along_concat.mp orderly
    have steady := ih earlier
    have ordered := here w before
    cases a with
    | request items =>
      rw [step_request_settled ordered.1 moved]
      exact steady.request ordered.1 ordered.2.1 ordered.2.2
    | next =>
      cases pending : w.pending with
      | nil => simp [step,pending] at moved
      | cons item rest =>
        have reaches := steady.reaches item (by rw [pending]; exact List.mem_cons_self)
        rw [step_next_goesOn steady.alone pending reaches ordered moved]
        exact steady.next pending
    | publish reading =>
      cases moved
      exact steady.publish ordered

variable (gateway) in
/-- What the nodes tell after the actions. The publication that comes last shows its
    reading, and a failed one stands until the next of its signal. Until then a client's
    write that can be encoded is accepted exactly after a good reading, and a refused one
    stores nothing and pushes nothing. -/
structure Truthful (actions : List (Action ν gateway.contract)) (w : Server ν) : Prop where
  published : ∀ before reading, actions = before ++ [.publish reading] →
    w.state.values (gateway.nodeId reading.signal) = some (shown reading)
  failed : ∀ signal ∈ gateway.contract.signals, lastReading signal actions = some none →
    w.state.values (gateway.nodeId signal) = some badValue
  writes : ∀ item rest signal result words, w.pending = item :: rest → signal ∈ gateway.contract.signals →
    gateway.nodeId signal = item.node → lastReading signal actions = some result →
    encodeValue signal.modbus item.datavalue gateway.contract.metadata = .ok words →
    ((setSignal gateway w.state item.node item.datavalue).2 = .ok () ↔ result.isSome) ∧
      ∀ e, (setSignal gateway w.state item.node item.datavalue).2 = .error e →
        (setSignal gateway w.state item.node item.datavalue).1.values = w.state.values ∧
          (setSignal gateway w.state item.node item.datavalue).1.pushes = w.state.pushes

/-- In a steady state the write gate follows the last reading. -/
theorem Steady.writes {item : WriteItem ν} {rest : List (WriteItem ν)} {signal : Signal}
    {result : Option (List ℕ × Value)} {words : List ℕ} (steady : Steady gateway actions w)
    (pending : w.pending = item :: rest) (listed : signal ∈ gateway.contract.signals)
    (node : gateway.nodeId signal = item.node) (last : lastReading signal actions = some result)
    (encoded : encodeValue signal.modbus item.datavalue gateway.contract.metadata = .ok words) :
    ((setSignal gateway w.state item.node item.datavalue).2 = .ok () ↔ result.isSome) ∧
      ∀ e, (setSignal gateway w.state item.node item.datavalue).2 = .error e →
        (setSignal gateway w.state item.node item.datavalue).1.values = w.state.values ∧
          (setSignal gateway w.state item.node item.datavalue).1.pushes = w.state.pushes := by
  have recorded := steady.words signal listed result last
  have marked : gateway.nodeId signal ∈ w.state.externalWrites := by
    rw [steady.marks,pending,node]
    simp
  rw [← node]
  cases result with
  | none =>
    rw [setSignal_refused gateway w.state listed marked recorded]
    exact ⟨by simp,fun _ _ => ⟨rfl,rfl⟩⟩
  | some polled =>
    have confirmed : (w.state.lastWords signal.name).isSome := by
      rw [recorded]
      rfl
    have returned := setSignal_accepted gateway w.state listed marked confirmed encoded
    refine ⟨by simp [returned],fun e raised => ?_⟩
    rw [returned] at raised
    cases raised

/-- An orderly run is truthful throughout exactly when every good reading of a state
    machine that `int` does not take is published over a bad status. -/
theorem truthful_iff {w₀ : Server ν} (unmarked : w₀.state.externalWrites = ∅) (settled : w₀.pending = [])
    (orderly : Along (step gateway) (Orderly gateway) w₀ actions) :
    (∀ earlier w, earlier <+: actions → run (step gateway) w₀ earlier = some w → Truthful gateway earlier w) ↔
      ∀ earlier reading w, earlier ++ [.publish reading] <+: actions → run (step gateway) w₀ earlier = some w →
        Uncoded reading → w.state.values (gateway.nodeId reading.signal) = some badValue := by
  have prefixed {earlier : List (Action ν gateway.contract)} (start : earlier <+: actions) :
      Along (step gateway) (Orderly gateway) w₀ earlier := by
    obtain ⟨later,rfl⟩ := start
    exact ((along_append w₀ earlier later).mp orderly).1
  -- Before a publication no node is marked, so it shows its reading or raises.
  have shows {before : List (Action ν gateway.contract)} {reading : Reading gateway.contract} {t : Server ν}
      (start : before ++ [.publish reading] <+: actions) (reached : run (step gateway) w₀ before = some t) :
      (publish gateway t.state reading).1.values (gateway.nodeId reading.signal) = some (shown reading) ↔
        (Uncoded reading → t.state.values (gateway.nodeId reading.signal) = some badValue) := by
    obtain ⟨earlier,here⟩ := along_concat.mp (prefixed start)
    have steady := run_steady unmarked settled earlier reached
    have empty : t.pending = [] := here t reached
    have none : gateway.nodeId reading.signal ∉ t.state.externalWrites := by
      rw [steady.marks,empty]
      exact Finset.notMem_empty _
    exact publish_shown_iff gateway t.state none
  constructor
  · intro truthful earlier reading w start reached
    have next : run (step gateway) w₀ (earlier ++ [.publish reading]) =
        some { w with state := (publish gateway w.state reading).1 } := run_concat.mpr ⟨w,reached,rfl⟩
    exact (shows start reached).mp ((truthful _ _ start next).published earlier reading rfl)
  · intro coded earlier w start reached
    have steady := run_steady unmarked settled (prefixed start) reached
    refine ⟨?_,steady.failed,fun item rest signal result words => steady.writes⟩
    rintro before reading rfl
    obtain ⟨t,earlier,moved⟩ := run_concat.mp reached
    cases moved
    exact (shows start earlier).mpr (coded before reading t start earlier)

end

/-! ### The shipped contract and a mode of the line -/

theorem shipped_truthful_iff :
    let write : WriteItem String := ⟨"s=Conveyor1.SpeedSetpoint",{ value := some (.plain (.float (.fin 1))) },true⟩
    let actions : List (Action String shippedGateway.contract) :=
      [.publish (setpointReading (some ([0],.float (.fin 0)))),.request [write],.next,.publish (setpointReading none),
        .request [write],.next]
    (∀ earlier w, earlier <+: actions → run (step shippedGateway) {} earlier = some w →
      Truthful shippedGateway earlier w) ↔
      ∀ earlier reading w, earlier ++ [.publish reading] <+: actions →
        run (step shippedGateway) {} earlier = some w → Uncoded reading →
          w.state.values (shippedGateway.nodeId reading.signal) = some badValue :=
  truthful_iff rfl rfl (by decide +kernel)

/-- A state machine on a float register that clients of the PLC may write. -/
def mode : Signal where
  name := "Line.Mode"
  modbus := { table := .holding, addr := 50, type := .float32 }
  opcua := { id := "s=Line.Mode", access := "RO", states := some [(0,"Off"),(1,"Auto")] }

def modeGateway : Gateway String where
  contract := { Shipped.tags with signals := Shipped.tags.signals ++ [mode] }
  valid := by decide +kernel
  nodeId := fun s => s.opcua.id
  apart := by decide +kernel

def modeReading (words : List ℕ) (value : Value) : Reading modeGateway.contract where
  signal := mode
  listed := by decide +kernel
  result := some (words,value)

/-- The registers of a NaN are read without an error, and the node goes on showing the
    mode of the reading before. -/
theorem mode_stays_good :
    let actions : List (Action String modeGateway.contract) :=
      [.publish (modeReading [0x3F80,0] (.float (.fin 1))),.publish (modeReading [0x7FC0,0] (.float .nan))]
    (decode mode.modbus [0x7FC0,0] Shipped.metadata).toOption = some (.float .nan) ∧
      Along (step modeGateway) (Orderly modeGateway) {} actions ∧
      ∃ w, run (step modeGateway) {} actions = some w ∧
        w.state.values "s=Line.Mode" = some { value := some (.text "Auto") } ∧
        ¬ Truthful modeGateway actions w := by
  intro actions
  obtain ⟨w,reached⟩ := Option.isSome_iff_exists.mp (by decide +kernel : (run (step modeGateway) {} actions).isSome)
  have shows : w.state.values "s=Line.Mode" = some { value := some (.text "Auto") } := by
    have evaluated : (run (step modeGateway) {} actions).map (fun t => t.state.values "s=Line.Mode") =
        some (some { value := some (.text "Auto") }) := by decide +kernel
    rw [reached,Option.map_some,Option.some.injEq] at evaluated
    exact evaluated
  refine ⟨by decide +kernel,by decide +kernel,w,reached,shows,fun truthful => ?_⟩
  have bad := truthful.published [.publish (modeReading [0x3F80,0] (.float (.fin 1)))] _ rfl
  have value : shown (modeReading [0x7FC0,0] (.float .nan)) = badValue := rfl
  rw [value] at bad
  cases shows.symm.trans bad

end MockPlant.StaleValues
