import MockPlant.ClientCalls
import MockPlant.Controller
import MockPlant.EndToEnd

/-!
What the user of the client sees of the plant. The server samples the nodes that the client has
subscribed to, and the client takes the samples of each node in their order, finds the signal
that the node is of and passes the update on unless it is noise. So the user is told nothing
but what the nodes have shown, and what the user was told last stands for what they show now.
-/
namespace MockPlant.UserView
open MockPlant.Python MockPlant.Contract MockPlant.Codec MockPlant.Machine MockPlant.Plc MockPlant.Runs MockPlant.Reports
open MockPlant.GatewayServer MockPlant.RegisterMap MockPlant.InputRegisters MockPlant.StaleValues MockPlant.WholePlant
open MockPlant.Provenance MockPlant.PollRounds MockPlant.EndToEnd MockPlant.Controller MockPlant.Resolution MockPlant.Validation
open MockPlant.ScanCommands

/-! ### The subscribed client -/

/-- `_zero` -/
def zero (type : String) : Value :=
  if type = "Boolean" then .bool false else if type = "Float" ∨ type = "Double" then .float (.fin 0) else .int 0

section
variable {ν : Type} [DecidableEq ν] (site : Site ν)

/-- The plant and a client since it watches: the samples taken of each node, how many of them the
    client has handled, the updates that it remembers and those that its sink has got. -/
structure View where
  world : World site := {}
  samples : ν → List DataValue := fun _ => []
  handled : ν → ℕ := fun _ => 0
  reported : Reported := watched
  sunk : List Update := []

/-- A step of the plant, a sample of a signal's node, or the notification of its next sample. -/
inductive Action (ν : Type)
  | plant (a : WholePlant.Action ν)
  | sample (signal : Signal)
  | notify (signal : Signal) (sourceTimestamp : Option ℤ)
deriving DecidableEq

variable {site} (found : Found ν) (deadband : ℚ) (fresh : ν → DataValue)

/-- What a node shows: the value written last, or before there is one the zero that a variable is added
    with. A state machine is fresh then. -/
def showing (w : World site) (node : ν) : DataValue :=
  match w.server.state.values node with
  | some d => d
  | none =>
    match (byNodeId site.gateway node).toOption.bind (·.opcua.type) with
    | some type => { value := some (.plain (zero type)) }
    | none => fresh node

/-- `datachange_notification`, where `signal_of` is a lookup in what has been found. -/
def datachangeNotification (v : View site) (node : ν) (d : DataValue) (sourceTimestamp : Option ℤ) : View site :=
  match found.signals.lookup node with
  | none => v
  | some signal =>
    let update : Update := ⟨signal,d.value,d.status,sourceTimestamp⟩
    match report deadband v.reported update with
    | .error _ => v
    | .ok (reported,isNews) => { v with reported, sunk := if isNews then v.sunk ++ [update] else v.sunk }

/-- The node that `watch` subscribes to for a signal of the contract. -/
def monitored (gateway : Gateway ν) (signal : Signal) : Option ν :=
  if signal ∈ gateway.contract.signals then found.nodes.lookup signal.name else none

def step (v : View site) : Action ν → Option (View site)
  | .plant a => (WholePlant.step v.world a).map (fun world => { v with world })
  | .sample signal => do
    let node ← monitored found site.gateway signal
    some { v with samples := Function.update v.samples node (v.samples node ++ [showing fresh v.world node]) }
  | .notify signal sourceTimestamp => do
    let node ← monitored found site.gateway signal
    let d ← (v.samples node)[v.handled node]?
    let notified := datachangeNotification found deadband v node d sourceTimestamp
    some { notified with handled := Function.update v.handled node (v.handled node + 1) }

/-- The plant's part of the actions. -/
def plantActions (actions : List (Action ν)) : List (WholePlant.Action ν) :=
  actions.filterMap (fun a => match a with | .plant b => some b | _ => none)

/-- The client has found the nodes that the gateway publishes at. -/
def Resolves (gateway : Gateway ν) (found : Found ν) : Prop :=
  ∀ s ∈ gateway.contract.signals, found.nodes.lookup s.name = some (gateway.nodeId s) ∧
    found.signals.lookup (gateway.nodeId s) = some s

end

/-- A client that agrees with the address space has found the nodes of the server on it. -/
theorem agrees_resolves {ν : Type} [DecidableEq ν] {lib : AddressSpace.Library ν} {unit : Signal → Option String}
    {contract : Contract} {b : AddressSpace.Built ν} {found : Found ν} (valid : validate contract = .ok ())
    (built : AddressSpace.buildAddressSpace lib unit contract = .ok b) (agrees : Agrees contract b found) :
    ∃ gateway : Gateway ν, gateway.contract = contract ∧ Resolves gateway found := by
  obtain ⟨gateway,rfl,nodes,_⟩ := AddressSpace.built_serves valid built
  refine ⟨gateway,rfl,fun s listed => ?_⟩
  obtain ⟨nodeId,held,recorded,back⟩ := agrees.signal s listed
  have published := nodeIds_listed gateway listed
  rw [nodes,held] at published
  cases published
  exact ⟨recorded,back⟩

/-! ### Reports -/

section
variable {deadband : ℚ} {reported reported' : Reported} {update last : Update} {isNews : Bool}

theorem finite_of_abs_lt {z : PyFloat} {d : ℚ} (close : z.abs.lt (.fin d) = true) : ∃ c, z.rat? = some c ∧ |c| < d := by
  cases z with
  | fin q => exact ⟨q,rfl,of_decide_eq_true close⟩
  | negZero => exact ⟨0,rfl,by rw [abs_zero]; exact of_decide_eq_true close⟩
  | _ => simp [PyFloat.abs,PyFloat.lt] at close

/-- A finite difference is one of finite numbers. -/
theorem finite_of_sub {x y : PyFloat} {c : ℚ} (finite : (x.sub y).rat? = some c) :
    ∃ a b, y.rat? = some a ∧ x.rat? = some b ∧ c = b - a := by
  have operands : x.rat?.isSome ∧ y.rat?.isSome := by
    unfold PyFloat.sub PyFloat.neg at finite
    cases y <;> cases x <;> simp_all [PyFloat.add,PyFloat.rat?] <;> split_ifs at finite
  obtain ⟨b,left⟩ := Option.isSome_iff_exists.mp operands.1
  obtain ⟨a,right⟩ := Option.isSome_iff_exists.mp operands.2
  rw [PyFloat.sub_rat left right,Option.some.injEq] at finite
  exact ⟨a,b,right,left,finite.symm⟩

theorem noise_true (isNoise : noise deadband last update = .ok true) : Noise deadband last update := by
  unfold noise at isNoise
  split_ifs at isNoise with comparable
  · refine ⟨comparable.1,comparable.2,?_⟩
    split at isNoise
    case h_2 => cases isNoise
    case h_1 before now first second =>
      obtain ⟨x,number,isNoise⟩ := bind_eq_ok.mp isNoise
      obtain ⟨y,number',isNoise⟩ := bind_eq_ok.mp isNoise
      cases now <;> cases number
      cases before <;> cases number'
      obtain ⟨c,finite,close⟩ := finite_of_abs_lt (Except.ok.inj isNoise)
      obtain ⟨a,b,left,right,rfl⟩ := finite_of_sub finite
      exact ⟨a,b,by simp [first,rational,left],by simp [second,rational,right],close⟩
  · cases isNoise

/-- No text stands where a number is to be compared. -/
def Untexted (signal : Signal) (value : Option Variant) : Prop := analogue signal = true → ∀ text, value ≠ some (.text text)

theorem noise_total (before : Untexted update.signal last.value) (now : Untexted update.signal update.value) :
    ∃ isNoise, noise deadband last update = .ok isNoise := by
  unfold noise
  split_ifs with comparable
  · split
    · rename_i first second
      rename_i x y
      cases x with
      | text name => exact absurd first (before comparable.1 name)
      | plain x =>
        cases y with
        | text name => exact absurd second (now comparable.1 name)
        | plain y => exact ⟨_,rfl⟩
    · exact ⟨_,rfl⟩
  · exact ⟨_,rfl⟩

theorem report_total (before : ∀ last, reported update.signal.name = some last → Untexted update.signal last.value)
    (now : Untexted update.signal update.value) : ∃ outcome, report deadband reported update = .ok outcome := by
  unfold report
  cases remembered : reported update.signal.name with
  | none => exact ⟨_,rfl⟩
  | some last =>
    obtain ⟨isNoise,completes⟩ : ∃ isNoise, noise deadband last update = .ok isNoise := noise_total (before last remembered) now
    simp only [completes,bind,Except.bind]
    cases isNoise <;> exact ⟨_,rfl⟩

/-- An update is passed on and remembered, or is noise beside the one that is. -/
theorem report_ok (done : report deadband reported update = .ok (reported',isNews)) :
    (isNews = true ∧ reported' = Function.update reported update.signal.name (some update)) ∨
      isNews = false ∧ reported' = reported ∧ ∃ last, reported update.signal.name = some last ∧ Noise deadband last update := by
  unfold report at done
  cases remembered : reported update.signal.name with
  | none =>
    simp only [remembered] at done
    cases done
    exact .inl ⟨rfl,rfl⟩
  | some last =>
    simp only [remembered] at done
    obtain ⟨isNoise,compared,done⟩ := bind_eq_ok.mp done
    cases isNoise with
    | false =>
      cases done
      exact .inl ⟨rfl,rfl⟩
    | true =>
      cases done
      exact .inr ⟨rfl,rfl,last,rfl,noise_true compared⟩

end

/-! ### Nodes without text -/

section
variable {ν : Type} [DecidableEq ν] {site : Site ν} {signal : Signal} {actions : List (WholePlant.Action ν)} {w : World site}

theorem shown_untexted {contract : Contract} {reading : Reading contract} (plain : reading.signal.opcua.states = none)
    (text : String) : (shown reading).value ≠ some (.text text) := by
  unfold shown
  cases reading.result with
  | none => simp [badValue]
  | some => simp [plain]

theorem plain_of_analogue {contract : Contract} (valid : validate contract = .ok ()) (listed : signal ∈ contract.signals)
    (isAnalogue : analogue signal = true) : signal.opcua.states = none := by
  refine (checkSignalKind_iff.mp (validate_ok valid).2.2.2 signal listed).mp ?_
  cases known : signal.opcua.type with
  | none => simp [analogue,known] at isAnalogue
  | some => rfl

/-- No text that comes to the setter is for an analogue signal. -/
theorem reaches_untexted {item : WriteItem ν} (reaches : item.reaches site.gateway = true)
    (listed : signal ∈ site.gateway.contract.signals) (node : item.node = site.gateway.nodeId signal)
    (isAnalogue : analogue signal = true) (text : String) : item.datavalue.value ≠ some (.text text) := by
  intro texted
  have known := byNodeId_listed site.gateway listed
  simp only [WriteItem.reaches,WriteItem.mistyped,texted,node,known,Bool.and_eq_true,Bool.not_eq_true',Except.toOption,
    Option.bind_some] at reaches
  cases type : signal.opcua.type with
  | none => simp [analogue,type] at isAnalogue
  | some type' =>
    simp only [type,decide_eq_false_iff_not] at reaches
    have float : type' ∈ ANALOGUE_TYPES := by simpa [analogue,type] using isAnalogue
    exact reaches.1.2 ((by decide : ANALOGUE_TYPES ⊆ numberTypes) float)

/-- In an orderly run the node of an analogue signal shows no text. -/
theorem values_untexted (listed : signal ∈ site.gateway.contract.signals) (isAnalogue : analogue signal = true)
    (reached : run WholePlant.step ({} : World site) actions = some w)
    (orderly : Along WholePlant.step Orderly ({} : World site) actions) {d : DataValue}
    (value : w.server.state.values (site.gateway.nodeId signal) = some d) (text : String) : d.value ≠ some (.text text) := by
  refine run_induction (P := fun actions w => Along WholePlant.step Orderly ({} : World site) actions → ∀ d,
    w.server.state.values (site.gateway.nodeId signal) = some d → ∀ text, d.value ≠ some (.text text)) ?_ ?_
    actions w reached orderly d value text
  · intro _ _ value
    cases value
  · intro actions w a w' before ih moved orderly d value
    obtain ⟨earlier,_⟩ := along_concat.mp orderly
    have old := ih earlier
    cases a with
    | traffic =>
      obtain ⟨_,_,rfl⟩ := step_traffic moved
      exact old d value
    | request items =>
      obtain ⟨_,done,rfl⟩ := step_request moved
      cases done
      rw [proceed_state] at value
      exact old d value
    | next =>
      obtain ⟨_,done,rfl⟩ := step_next moved
      obtain ⟨item,_,_,⟨reaches,_,_,rfl⟩ | ⟨_,rfl⟩⟩ := step_next_cases site.gateway done <;> rw [proceed_state] at value
      · rcases setSignal_values site.gateway w.server.state item.node item.datavalue with kept | stored
        · exact old d (congrFun kept _ ▸ value)
        · rw [stored,Function.update_apply] at value
          split_ifs at value with here
          · rw [Option.some.injEq] at value
            exact value ▸ reaches_untexted reaches listed here.symm isAnalogue
          · exact old d value
      · exact old d value
    | push =>
      obtain ⟨_,_,_,rfl⟩ := step_push moved
      exact old d value
    | pushReturns =>
      obtain ⟨_,_,rfl⟩ := step_pushReturns moved
      exact old d value
    | round =>
      obtain ⟨_,_,_,rfl⟩ := step_round moved
      exact old d value
    | read =>
      obtain ⟨_,_,_,_,⟨_,_,rfl⟩ | ⟨_,rfl⟩⟩ := step_read moved
      · exact old d value
      · exact old d value
    | publish =>
      obtain ⟨_,_,reading,_,_,rfl⟩ := step_publish moved
      rcases publish_stores site.gateway w.server.state reading with kept | stored
      · exact old d (congrFun kept _ ▸ value)
      · simp only [stored,Function.update_apply] at value
        split_ifs at value with same
        · have own := site.gateway.apart _ listed _ reading.listed same
          rw [Option.some.injEq] at value
          exact value ▸ shown_untexted (own ▸ plain_of_analogue site.gateway.valid listed isAnalogue)
        · exact old d value

end

/-! ### What the sink has got -/

section
variable {ν : Type} [DecidableEq ν] {site : Site ν}

/-- The last update of a signal that the sink has got. -/
def lastSunk (v : View site) (signal : Signal) : Option Update := (ofKey Update.signal signal v.sunk).getLast?

/-- The last sample of a node that the client has handled. -/
def lastHandled (v : View site) (node : ν) : Option DataValue := ((v.samples node).take (v.handled node)).getLast?

/-- The client has handled a sample of what the signal's node shows. -/
def CaughtUp (fresh : ν → DataValue) (v : View site) (signal : Signal) : Prop :=
  lastHandled v (site.gateway.nodeId signal) = some (showing fresh v.world (site.gateway.nodeId signal))

instance (fresh : ν → DataValue) (v : View site) (signal : Signal) : Decidable (CaughtUp fresh v signal) :=
  inferInstanceAs (Decidable (_ = _))

/-- An update has the status of a value and tells it, to less than the deadband when it is a number. -/
structure StandsFor (deadband : ℚ) (last : Update) (d : DataValue) : Prop where
  status : last.status = d.status
  value : last.value = d.value ∨ analogue last.signal = true ∧
    ∃ a b, rational last.value = some a ∧ rational d.value = some b ∧ |b - a| < deadband

/-- The updates passed on are of the samples, the last one of each signal is remembered, and it
    stands for the last sample handled, unless texts have come for a number. -/
structure Honest (deadband : ℚ) (v : View site) : Prop where
  handled : ∀ node, v.handled node ≤ (v.samples node).length
  sunk : ∀ u ∈ v.sunk, u.signal ∈ site.gateway.contract.signals ∧
    ∃ d ∈ v.samples (site.gateway.nodeId u.signal), u.value = d.value ∧ u.status = d.status
  reported : ∀ s ∈ site.gateway.contract.signals, v.reported s.name = lastSunk v s
  stands : ∀ s ∈ site.gateway.contract.signals, (∀ d ∈ v.samples (site.gateway.nodeId s), Untexted s d.value) →
    ∀ d, lastHandled v (site.gateway.nodeId s) = some d → ∃ last, lastSunk v s = some last ∧ StandsFor deadband last d

variable {found : Found ν} {deadband : ℚ} {fresh : ν → DataValue} {v v' : View site} {signal : Signal}

theorem ofKey_concat (updates : List Update) (u : Update) :
    (ofKey Update.signal signal (updates ++ [u])).getLast? =
      if u.signal = signal then some u else (ofKey Update.signal signal updates).getLast? := by
  by_cases own : u.signal = signal <;> simp [ofKey,List.filter_append,own]

omit [DecidableEq ν] in
/-- An update that the sink has got of a signal is of it. -/
theorem lastSunk_mem {last : Update} (passed : lastSunk v signal = some last) : last ∈ v.sunk ∧ last.signal = signal := by
  have member := List.mem_filter.mp (List.mem_of_getLast? passed)
  exact ⟨member.1,of_decide_eq_true member.2⟩

omit [DecidableEq ν] in
theorem names_inj {s t : Signal} (first : s ∈ site.gateway.contract.signals) (second : t ∈ site.gateway.contract.signals)
    (same : s.name = t.name) : s = t :=
  List.inj_on_of_nodup_map (names_distinct (validate_ok site.gateway.valid).2.1) first second same

theorem Honest.sample (honest : Honest deadband v) (node : ν) (d : DataValue) :
    Honest deadband { v with samples := Function.update v.samples node (v.samples node ++ [d]) } := by
  have more (other : ν) (e : DataValue) (old : e ∈ v.samples other) :
      e ∈ Function.update v.samples node (v.samples node ++ [d]) other := by
    rw [Function.update_apply]
    split_ifs with here
    · exact List.mem_append_left _ (here ▸ old)
    · exact old
  refine ⟨fun other => ?_,fun u member => ?_,honest.reported,fun s listed untexted e last => ?_⟩
  · simp only [Function.update_apply]
    split_ifs with here
    · subst here
      rw [List.length_append]
      exact (honest.handled other).trans (Nat.le_add_right _ _)
    · exact honest.handled other
  · obtain ⟨listed,e,old,rest⟩ := honest.sunk u member
    exact ⟨listed,e,more _ e old,rest⟩
  · refine honest.stands s listed (fun e old => untexted e (more _ e old)) e ?_
    -- The sample comes after those that have been handled.
    simp only [lastHandled,Function.update_apply] at last ⊢
    split_ifs at last with here
    · subst here
      rwa [List.take_append_of_le_length (honest.handled _)] at last
    · exact last

/-- A sample is handled: its update is passed on and remembered, or another one stands for it. -/
theorem Honest.handle (honest : Honest deadband v) (listed : signal ∈ site.gateway.contract.signals) {d : DataValue}
    (next : (v.samples (site.gateway.nodeId signal))[v.handled (site.gateway.nodeId signal)]? = some d)
    {reported : Reported} {sunk : List Update}
    (outcome : (∃ u : Update, u.signal = signal ∧ u.value = d.value ∧ u.status = d.status ∧
        reported = Function.update v.reported signal.name (some u) ∧ sunk = v.sunk ++ [u]) ∨
      reported = v.reported ∧ sunk = v.sunk ∧ ((∀ e ∈ v.samples (site.gateway.nodeId signal), Untexted signal e.value) →
        ∃ last, lastSunk v signal = some last ∧ StandsFor deadband last d)) :
    Honest deadband { v with
      reported
      sunk
      handled := Function.update v.handled (site.gateway.nodeId signal) (v.handled (site.gateway.nodeId signal) + 1) } := by
  have inside := (List.getElem?_eq_some_iff.mp next).1
  have sampled : d ∈ v.samples (site.gateway.nodeId signal) := List.mem_of_getElem? next
  have counted (node : ν) : Function.update v.handled (site.gateway.nodeId signal)
      (v.handled (site.gateway.nodeId signal) + 1) node ≤ (v.samples node).length := by
    rw [Function.update_apply]
    split_ifs with here
    · exact here ▸ inside
    · exact honest.handled node
  -- The last sample that has been handled of this node is this one.
  have now : (v.samples (site.gateway.nodeId signal)).take (v.handled (site.gateway.nodeId signal) + 1) =
      (v.samples (site.gateway.nodeId signal)).take (v.handled (site.gateway.nodeId signal)) ++ [d] := by
    rw [List.take_add_one,next]
    rfl
  have other {s : Signal} (member : s ∈ site.gateway.contract.signals) (different : s ≠ signal) :
      site.gateway.nodeId s ≠ site.gateway.nodeId signal := fun same => different (site.gateway.apart s member signal listed same)
  rcases outcome with ⟨u,own,value,status,rfl,rfl⟩ | ⟨rfl,rfl,stood⟩
  · refine ⟨counted,fun w member => ?_,fun s member => ?_,fun s member untexted e last => ?_⟩
    · rcases List.mem_append.mp member with old | new
      · exact honest.sunk w old
      · rw [List.mem_singleton] at new
        subst new
        exact ⟨own ▸ listed,d,own ▸ sampled,value,status⟩
    · simp only [lastSunk,ofKey_concat,Function.update_apply]
      by_cases same : s = signal
      · simp [same,own]
      · have names : s.name ≠ signal.name := fun equal => same (names_inj member listed equal)
        rw [if_neg names,if_neg (own ▸ Ne.symm same)]
        exact honest.reported s member
    · simp only [lastSunk,ofKey_concat]
      by_cases same : s = signal
      · subst same
        simp only [lastHandled,Function.update_self,now,List.getLast?_concat,Option.some.injEq] at last
        subst last
        exact ⟨u,by rw [if_pos own],status,.inl value⟩
      · rw [if_neg (own ▸ Ne.symm same)]
        simp only [lastHandled,Function.update_of_ne (other member same)] at last
        exact honest.stands s member untexted e last
  · refine ⟨counted,honest.sunk,honest.reported,fun s member untexted e last => ?_⟩
    by_cases same : s = signal
    · subst same
      simp only [lastHandled,Function.update_self,now,List.getLast?_concat,Option.some.injEq] at last
      subst last
      exact stood untexted
    · simp only [lastHandled,Function.update_of_ne (other member same)] at last
      exact honest.stands s member untexted e last

/-- The next sample of a signal is handled. -/
theorem Honest.notify (honest : Honest deadband v) (resolves : Resolves site.gateway found)
    (listed : signal ∈ site.gateway.contract.signals) {d : DataValue}
    (next : (v.samples (site.gateway.nodeId signal))[v.handled (site.gateway.nodeId signal)]? = some d)
    (sourceTimestamp : Option ℤ) :
    Honest deadband { datachangeNotification found deadband v (site.gateway.nodeId signal) d sourceTimestamp with
      handled := Function.update v.handled (site.gateway.nodeId signal) (v.handled (site.gateway.nodeId signal) + 1) } := by
  have sampled : d ∈ v.samples (site.gateway.nodeId signal) := List.mem_of_getElem? next
  unfold datachangeNotification
  simp only [(resolves signal listed).2]
  cases outcome : report deadband v.reported ⟨signal,d.value,d.status,sourceTimestamp⟩ with
  | error e =>
    refine honest.handle listed next (.inr ⟨rfl,rfl,fun untexted => ?_⟩)
    obtain ⟨completed,completes⟩ : ∃ completed,
        report deadband v.reported ⟨signal,d.value,d.status,sourceTimestamp⟩ = .ok completed := by
      refine report_total (fun last remembered => ?_) (untexted d sampled)
      rw [honest.reported signal listed] at remembered
      obtain ⟨member,own⟩ := lastSunk_mem remembered
      obtain ⟨_,e,old,value,_⟩ := honest.sunk last member
      rw [value]
      exact untexted e (own ▸ old)
    cases outcome.symm.trans completes
  | ok done =>
    obtain ⟨reported,isNews⟩ := done
    rcases report_ok outcome with ⟨rfl,rfl⟩ | ⟨rfl,rfl,last,remembered,isAnalogue,status,a,b,before,now,near⟩
    · exact honest.handle listed next (.inl ⟨⟨signal,d.value,d.status,sourceTimestamp⟩,rfl,rfl,rfl,rfl,rfl⟩)
    · refine honest.handle listed next (.inr ⟨rfl,rfl,fun _ => ?_⟩)
      rw [honest.reported signal listed] at remembered
      have own := (lastSunk_mem remembered).2
      exact ⟨last,remembered,status,.inr ⟨own ▸ isAnalogue,a,b,before,now,near⟩⟩

theorem step_sample (moved : step found deadband fresh v (.sample signal) = some v') :
    signal ∈ site.gateway.contract.signals ∧ ∃ node, found.nodes.lookup signal.name = some node ∧
      v' = { v with samples := Function.update v.samples node (v.samples node ++ [showing fresh v.world node]) } := by
  obtain ⟨node,known,moved⟩ := Option.bind_eq_some_iff.mp moved
  unfold monitored at known
  split_ifs at known with listed
  exact ⟨listed,node,known,(Option.some.inj moved).symm⟩

theorem step_notify {sourceTimestamp : Option ℤ}
    (moved : step found deadband fresh v (.notify signal sourceTimestamp) = some v') :
    signal ∈ site.gateway.contract.signals ∧ ∃ node d, found.nodes.lookup signal.name = some node ∧
      (v.samples node)[v.handled node]? = some d ∧ v' = { datachangeNotification found deadband v node d sourceTimestamp with
        handled := Function.update v.handled node (v.handled node + 1) } := by
  obtain ⟨node,known,moved⟩ := Option.bind_eq_some_iff.mp moved
  obtain ⟨d,next,moved⟩ := Option.bind_eq_some_iff.mp moved
  unfold monitored at known
  split_ifs at known with listed
  exact ⟨listed,node,d,known,next,(Option.some.inj moved).symm⟩

theorem datachangeNotification_rest (v : View site) (node : ν) (d : DataValue) (sourceTimestamp : Option ℤ) :
    (datachangeNotification found deadband v node d sourceTimestamp).world = v.world ∧
      (datachangeNotification found deadband v node d sourceTimestamp).samples = v.samples := by
  unfold datachangeNotification
  split
  · exact ⟨rfl,rfl⟩
  · simp only
    split <;> exact ⟨rfl,rfl⟩

/-! ### Runs -/

section
variable {actions : List (Action ν)} (reached : run (step found deadband fresh) ({} : View site) actions = some v)
include reached

/-- A run of the whole is a run of the plant. -/
theorem run_plant : run WholePlant.step ({} : World site) (plantActions actions) = some v.world := by
  refine run_induction (P := fun actions v => run WholePlant.step ({} : World site) (plantActions actions) = some v.world)
    rfl ?_ actions v reached
  intro actions v a v' _ ih moved
  simp only [plantActions,List.filterMap_append] at ih ⊢
  cases a with
  | plant a =>
    obtain ⟨world,moves,rfl⟩ := Option.map_eq_some_iff.mp moved
    exact run_concat.mpr ⟨_,ih,moves⟩
  | sample signal =>
    obtain ⟨_,node,_,rfl⟩ := step_sample moved
    simpa using ih
  | notify signal sourceTimestamp =>
    obtain ⟨_,node,d,_,_,rfl⟩ := step_notify moved
    simpa [(datachangeNotification_rest v node d sourceTimestamp).1] using ih

theorem run_honest (resolves : Resolves site.gateway found) : Honest deadband v := by
  refine run_induction (P := fun _ v => Honest deadband v) ?_ ?_ actions v reached
  · refine ⟨fun _ => le_refl _,by simp,fun _ _ => rfl,fun s _ _ d last => ?_⟩
    cases last
  · intro _ v a v' _ honest moved
    cases a with
    | plant a =>
      obtain ⟨world,_,rfl⟩ := Option.map_eq_some_iff.mp moved
      exact ⟨honest.handled,honest.sunk,honest.reported,honest.stands⟩
    | sample signal =>
      obtain ⟨_,node,_,rfl⟩ := step_sample moved
      exact honest.sample node _
    | notify signal sourceTimestamp =>
      obtain ⟨listed,node,d,known,next,rfl⟩ := step_notify moved
      cases (resolves signal listed).1.symm.trans known
      exact honest.notify resolves listed next sourceTimestamp

/-- A sample is what its node has shown at some point of the run. -/
theorem run_sampled {node : ν} {d : DataValue} (sampled : d ∈ v.samples node) : ∃ earlier later t,
    actions = earlier ++ later ∧ run (step found deadband fresh) ({} : View site) earlier = some t ∧
      d = showing fresh t.world node := by
  refine run_induction (P := fun actions v => d ∈ v.samples node → ∃ earlier later t, actions = earlier ++ later ∧
    run (step found deadband fresh) ({} : View site) earlier = some t ∧ d = showing fresh t.world node) ?_ ?_ actions v reached
    sampled
  · intro sampled
    cases sampled
  · intro actions v a v' before ih moved sampled
    have old (here : d ∈ v.samples node) : ∃ earlier later t, actions ++ [a] = earlier ++ later ∧
        run (step found deadband fresh) ({} : View site) earlier = some t ∧ d = showing fresh t.world node := by
      obtain ⟨earlier,later,t,rfl,start,shows⟩ := ih here
      exact ⟨earlier,later ++ [a],t,by simp,start,shows⟩
    cases a with
    | plant a =>
      obtain ⟨world,_,rfl⟩ := Option.map_eq_some_iff.mp moved
      exact old sampled
    | sample signal =>
      obtain ⟨_,other,_,rfl⟩ := step_sample moved
      simp only [Function.update_apply] at sampled
      split_ifs at sampled with here
      · subst here
        rcases List.mem_append.mp sampled with member | new
        · exact old member
        · exact ⟨actions,[.sample signal],v,rfl,before,List.mem_singleton.mp new⟩
      · exact old sampled
    | notify signal sourceTimestamp =>
      obtain ⟨_,other,e,_,_,rfl⟩ := step_notify moved
      exact old ((datachangeNotification_rest v other e sourceTimestamp).2 ▸ sampled)

/-- What a node shows comes from a poll or a client, unless it is what it has shown from the start. -/
theorem showing_sourced (node : ν) : showing fresh v.world node = showing fresh ({} : World site) node ∨
    Sourced ({} : World site) (plantActions actions) node (showing fresh v.world node) := by
  cases value : v.world.server.state.values node with
  | none => exact .inl (by simp [showing,value])
  | some d =>
    have shows : showing fresh v.world node = d := by simp [showing,value]
    rw [shows]
    exact .inr ((run_grounded grounded_start (run_plant reached)).values node d value)

/-- The node of an analogue signal shows no text in an orderly run. -/
theorem showing_untexted (orderly : Along WholePlant.step Orderly ({} : World site) (plantActions actions))
    (listed : signal ∈ site.gateway.contract.signals) :
    Untexted signal (showing fresh v.world (site.gateway.nodeId signal)).value := by
  intro isAnalogue text
  cases value : v.world.server.state.values (site.gateway.nodeId signal) with
  | none =>
    cases known : signal.opcua.type with
    | none => simp [analogue,known] at isAnalogue
    | some type => simp [showing,value,byNodeId_listed site.gateway listed,known,Except.toOption]
  | some d =>
    simpa [showing,value] using values_untexted listed isAnalogue (run_plant reached) orderly value text

/-- The last update of a signal that the sink has got stands for what the signal's node shows,
    when the client has caught up with it. -/
theorem run_current (resolves : Resolves site.gateway found)
    (orderly : Along WholePlant.step Orderly ({} : World site) (plantActions actions))
    (listed : signal ∈ site.gateway.contract.signals) (caughtUp : CaughtUp fresh v signal) :
    ∃ last, lastSunk v signal = some last ∧
      StandsFor deadband last (showing fresh v.world (site.gateway.nodeId signal)) := by
  refine (run_honest reached resolves).stands signal listed (fun d sampled => ?_) _ caughtUp
  obtain ⟨earlier,later,t,rfl,start,rfl⟩ := run_sampled reached sampled
  refine showing_untexted start ?_ listed
  rw [plantActions,List.filterMap_append] at orderly
  exact ((along_append _ _ _).mp orderly).1

/-- The user is told of every signal only what its node has shown at some point of the run, a poll of it, a
    client's write to it or what it has shown from the start. And in an orderly run what the user has
    been told last of a signal stands for what its node shows, once the client has caught up with it. -/
theorem user_told (resolves : Resolves site.gateway found) :
    (∀ u ∈ v.sunk, u.signal ∈ site.gateway.contract.signals ∧ ∃ earlier later t d, actions = earlier ++ later ∧
      run (step found deadband fresh) ({} : View site) earlier = some t ∧
      d = showing fresh t.world (site.gateway.nodeId u.signal) ∧ u.value = d.value ∧ u.status = d.status ∧
      (d = showing fresh ({} : World site) (site.gateway.nodeId u.signal) ∨
        Sourced ({} : World site) (plantActions earlier) (site.gateway.nodeId u.signal) d)) ∧
    (Along WholePlant.step Orderly ({} : World site) (plantActions actions) → ∀ s ∈ site.gateway.contract.signals,
      CaughtUp fresh v s → ∃ last, lastSunk v s = some last ∧
        StandsFor deadband last (showing fresh v.world (site.gateway.nodeId s))) := by
  refine ⟨fun u member => ?_,fun orderly s listed => run_current reached resolves orderly listed⟩
  obtain ⟨listed,d,sampled,value,status⟩ := (run_honest reached resolves).sunk u member
  obtain ⟨earlier,later,t,split,start,rfl⟩ := run_sampled reached sampled
  exact ⟨listed,earlier,later,t,_,split,start,rfl,value,status,showing_sourced start _⟩

end

/-! ### From the machines to the user -/

section
variable {last : Update}

theorem StandsFor.bad (stands : StandsFor deadband last badValue) :
    last.status = .badCommunicationError ∧ last.value = none := by
  refine ⟨stands.status,?_⟩
  rcases stands.value with same | ⟨_,_,_,_,now,_⟩
  · exact same
  · cases now

theorem StandsFor.text {name : String} (stands : StandsFor deadband last { value := some (.text name) }) :
    last.value = some (.text name) := by
  rcases stands.value with same | ⟨_,_,_,_,now,_⟩
  · exact same
  · cases now

theorem StandsFor.number {x : PyFloat} {r : ℚ} (stands : StandsFor deadband last { value := some (.plain (.float x)) })
    (finite : x.rat? = some r) (proper : 0 ≤ deadband) : ∃ q, rational last.value = some q ∧ |q - r| ≤ deadband := by
  rcases stands.value with same | ⟨_,q,r',before,now,near⟩
  · refine ⟨r,?_,by simpa using proper⟩
    rw [same]
    exact finite
  · cases finite.symm.trans now
    exact ⟨q,before,by rw [abs_sub_comm]; exact near.le⟩

end

section
variable (before : List (WholePlant.Action ν)) (w₀ : World site) (round : List (WholePlant.Action ν))

/-- What the user has been told last of a signal: that the round's poll of it has failed, or what
    has the property, after a good poll of it that found the machines of the state. -/
def LastTold (v : View site) (signal : Signal) (P : PlcState → Update → Prop) : Prop :=
  ∃ last, lastSunk v signal = some last ∧
    (FailedPoll w₀ round signal ∧ last.status = .badCommunicationError ∧ last.value = none ∨
      last.status = .good ∧ ∃ s, GoodPoll before w₀ round signal s ∧ P s last)

/-- What the user has been told last of the machines. -/
structure MachinesTold (deadband : ℚ) (v : View site) : Prop where
  state : LastTold before w₀ round v site.plc.cncStateSignal fun s last => last.value = some (.text s.cnc.state.value)
  speed : (intBounds site.plc.actualSignal.modbus.type).isSome →
    LastTold before w₀ round v site.plc.actualSignal fun s last => ∃ speed told, s.conveyor.speed.rat? = some speed ∧
      rational last.value = some told ∧ |told - speed| ≤ |site.plc.actualSignal.modbus.scale| / 2 + deadband
  position : LastTold before w₀ round v site.plc.positionSignal fun s last => ∃ words value,
    encode site.plc.positionSignal.modbus (.float s.conveyor.position) site.gateway.contract.metadata = .ok words ∧
    decode site.plc.positionSignal.modbus words site.gateway.contract.metadata = .ok value ∧
    StandsFor deadband last { value := some (.plain value) }

end

section
variable {actions : List (Action ν)} (reached : run (step found deadband fresh) ({} : View site) actions = some v)
  (resolves : Resolves site.gateway found) (proper : 0 ≤ deadband) (runnable : Runnable site.gateway.contract)
  (inputs : Inputs site.plc) (readOnly : ReadOnly site) {before round : List (WholePlant.Action ν)}
  (split : plantActions actions = before ++ [.round] ++ round) (sole : .round ∉ round)
  (orderly : Along WholePlant.step Orderly ({} : World site) (plantActions actions))
  (writes : ∀ a, .traffic a ∈ plantActions actions → WriteCode a) (scanned : ∃ dt, .traffic (.scan dt) ∈ before)
  (running : v.world.ended = false) (read : v.world.unread = []) (passed : v.world.readings = [])
include reached resolves proper runnable inputs readOnly split sole orderly writes scanned running read passed

/-- After a complete round in an orderly run, with a scan before it, the user of a client that has caught
    up with the published signals has been told last how a scan has found the machines, the latest one
    before the poll: the state of the machine, the speed of the conveyor to half a step of its scale
    and the deadband, and its position to the deadband; or that the poll has failed. -/
theorem machines_told (state : CaughtUp fresh v site.plc.cncStateSignal) (speed : CaughtUp fresh v site.plc.actualSignal)
    (position : CaughtUp fresh v site.plc.positionSignal) :
    ∃ w₀, run WholePlant.step ({} : World site) (before ++ [.round]) = some w₀ ∧
      MachinesTold (before ++ [.round]) w₀ round deadband v := by
  obtain ⟨same,built,_⟩ := boot_fixed site.booted
  have plantRun := run_plant reached
  have current {signal : Signal} (listed : signal ∈ site.plc.contract.signals) (caughtUp : CaughtUp fresh v signal)
      {d : DataValue}
      (value : v.world.server.state.values (site.gateway.nodeId signal) = some d) :
      ∃ last, lastSunk v signal = some last ∧ StandsFor deadband last d := by
    obtain ⟨last,told,stands⟩ := run_current reached resolves orderly (same ▸ listed) caughtUp
    rw [showing,value] at stands
    exact ⟨last,told,stands⟩
  rw [split] at plantRun orderly writes
  rw [run_append] at plantRun
  obtain ⟨w₀,start,rest⟩ := Option.bind_eq_some_iff.mp plantRun
  refine ⟨w₀,start,?_,fun integer => ?_,?_⟩
  · rcases round_state runnable inputs start sole orderly writes scanned rest running read passed readOnly with
      ⟨failed,value⟩ | ⟨s,good,value⟩
    · obtain ⟨last,told,stands⟩ := current built.cncState state value
      exact ⟨last,told,.inl ⟨failed,stands.bad⟩⟩
    · obtain ⟨last,told,stands⟩ := current built.cncState state value
      exact ⟨last,told,.inr ⟨stands.status,s,good,stands.text⟩⟩
  · rcases round_speed runnable inputs start sole orderly writes scanned rest running read passed readOnly integer with
      ⟨failed,value⟩ | ⟨s,x,y,r,⟨good,value⟩,finite,rounded,near⟩
    · obtain ⟨last,told,stands⟩ := current built.actual speed value
      exact ⟨last,told,.inl ⟨failed,stands.bad⟩⟩
    · obtain ⟨last,told,stands⟩ := current built.actual speed value
      obtain ⟨q,number,close⟩ := stands.number rounded proper
      refine ⟨last,told,.inr ⟨stands.status,s,good,x,q,finite,number,?_⟩⟩
      calc |q - x| ≤ |q - r| + |r - x| := abs_sub_le q r x
        _ ≤ deadband + |site.plc.actualSignal.modbus.scale| / 2 := add_le_add close near
        _ = _ := add_comm _ _
  · rcases round_position runnable inputs start sole orderly writes scanned rest running read passed readOnly with
      ⟨failed,shows⟩ | ⟨s,words,value,⟨good,shows⟩,encoded,decoded⟩
    · obtain ⟨last,told,stands⟩ := current built.position position shows
      exact ⟨last,told,.inl ⟨failed,stands.bad⟩⟩
    · obtain ⟨last,told,stands⟩ := current built.position position shows
      exact ⟨last,told,.inr ⟨stands.status,s,good,words,value,encoded,decoded,stands⟩⟩

end

end

/-- What a client finds of the shipped contract. -/
def shippedFound : Found String where
  nodes := Shipped.tags.signals.map (fun s => (s.name,s.opcua.id))
  signals := Shipped.tags.signals.map (fun s => (s.opcua.id,s))

theorem shipped_resolves : Resolves shippedSite.gateway shippedFound := by
  unfold Resolves
  decide +kernel

/-- A state machine is bad before its first state. -/
def shippedStep : View shippedSite → Action String → Option (View shippedSite) :=
  step shippedFound (1 / 100) (fun _ => badValue)

def notices (signals : List Signal) : List (Action String) := signals.flatMap (fun s => [.sample s,.notify s none])

/-- The speed that the round shows is noise beside the zero that the user has been told of it. -/
theorem user_told_noise :
    let actions := notices [Shipped.actualSpeed] ++ (.traffic (.scan (1 / 100)) :: .round :: shippedPoll).map .plant ++
      notices [Shipped.actualSpeed,Shipped.cncState]
    ∃ v, run shippedStep ({} : View shippedSite) actions = some v ∧
      v.sunk.map Update.signal = [Shipped.actualSpeed,Shipped.cncState] ∧
      (∀ u ∈ v.sunk, u.signal ∈ Shipped.tags.signals) ∧ ∃ last, lastSunk v Shipped.actualSpeed = some last ∧
        StandsFor (1 / 100) last (showing (fun _ => badValue) v.world "s=Conveyor1.ActualSpeed") := by
  intro actions
  have ends : (run shippedStep ({} : View shippedSite) actions).map (fun v => (v.sunk.map Update.signal,
      decide (CaughtUp (fun _ => badValue) v Shipped.actualSpeed))) = some ([Shipped.actualSpeed,Shipped.cncState],true) := by
    decide +kernel
  obtain ⟨v,reached,final⟩ := Option.map_eq_some_iff.mp ends
  simp only [Prod.mk.injEq,decide_eq_true_eq] at final
  obtain ⟨sources,current⟩ := user_told reached shipped_resolves
  refine ⟨v,reached,final.1,fun u member => (sources u member).1,?_⟩
  exact current (by decide +kernel) Shipped.actualSpeed (by decide +kernel) final.2

/-- The conveyor has been started, and a scan and a client's write fall into the round. -/
theorem machines_told_shipped :
    let before : List (WholePlant.Action String) := [.traffic (.write 16 10 [1500]),.traffic (.write 16 100 [1,0,0,1]),
      .traffic (.scan (1 / 100)),.traffic (.scan (1 / 100))]
    let round : List (WholePlant.Action String) := .read true :: .traffic (.scan (1 / 100)) :: List.replicate 4 (.read true) ++
      .publish :: .request [setpointItem 1] :: .next :: List.replicate 4 .publish
    let actions : List (Action String) := (before ++ WholePlant.Action.round :: round).map .plant ++ notices Shipped.tags.signals
    ∃ v, run shippedStep ({} : View shippedSite) actions = some v ∧
      ∃ w₀, run WholePlant.step ({} : World shippedSite) (before ++ [.round]) = some w₀ ∧
        MachinesTold (before ++ [.round]) w₀ round (1 / 100) v := by
  intro before round actions
  have ends : (run shippedStep ({} : View shippedSite) actions).map (fun v => (v.world.ended,v.world.unread.isEmpty,
      v.world.readings.isEmpty,[Shipped.cncState,Shipped.actualSpeed,Shipped.position].all (fun s =>
        decide (CaughtUp (fun _ => badValue) v s)))) = some (false,true,true,true) := by decide +kernel
  obtain ⟨v,reached,final⟩ := Option.map_eq_some_iff.mp ends
  simp only [Prod.mk.injEq,List.isEmpty_iff,List.all_cons,List.all_nil,Bool.and_eq_true,decide_eq_true_eq] at final
  obtain ⟨running,read,passed,state,speed,position,_⟩ := final
  have split : plantActions actions = before ++ [.round] ++ round := by decide +kernel
  refine ⟨v,reached,machines_told reached shipped_resolves (by norm_num) tags_runnable shipped_inputs shipped_readOnly split
    (by decide) (by decide +kernel) ?_ ⟨1 / 100,by simp [before]⟩ running read passed state speed position⟩
  rw [split]
  simp [before,round,WriteCode]

end MockPlant.UserView
