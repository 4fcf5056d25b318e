import MockPlant.StaleValues
import MockPlant.WholePlant

/-!
Where values come from. Whatever the order of the steps, and whichever writes the setter
takes for a client's, a node shows a poll of its own signal or what a client wrote to it,
and what the gateway writes to the PLC encodes such a value for the signal's own node.
-/
namespace MockPlant.Provenance
open MockPlant.Python MockPlant.Contract MockPlant.Codec MockPlant.Runs MockPlant.Projections
open MockPlant.GatewayServer MockPlant.RegisterMap MockPlant.ModbusLink MockPlant.StaleValues MockPlant.WholePlant

/-! ### The server's stores and pushes -/

section
variable {ν : Type} [DecidableEq ν] (gateway : Gateway ν) (s : State ν)

theorem setSignal_values (node : ν) (datavalue : DataValue) :
    (setSignal gateway s node datavalue).1.values = s.values ∨
      (setSignal gateway s node datavalue).1.values = Function.update s.values node (some datavalue) := by
  unfold setSignal
  split_ifs
  · cases accept gateway s node datavalue with
    | ok push => exact .inr rfl
    | error e => exact .inl rfl
  · exact .inr rfl

theorem setSignal_pushes (node : ν) (datavalue : DataValue) :
    (setSignal gateway s node datavalue).1.pushes = s.pushes ∨
      ∃ p, accept gateway s node datavalue = .ok p ∧ (setSignal gateway s node datavalue).1.pushes = s.pushes ++ [p] := by
  unfold setSignal
  split_ifs
  · cases accept gateway s node datavalue with
    | ok push => exact .inr ⟨push,rfl,rfl⟩
    | error e => exact .inl rfl
  · exact .inl rfl

/-- A publication leaves the values as they are or shows its reading. -/
theorem publish_stores (reading : Reading gateway.contract) :
    (publish gateway s reading).1.values = s.values ∨
      (publish gateway s reading).1.values =
        Function.update s.values (gateway.nodeId reading.signal) (some (shown reading)) := by
  obtain ⟨t,_,values,_,⟨_,_,_,raised⟩ | ⟨_,written | changed⟩⟩ := publish_cases gateway s reading
  · rw [raised]
    exact .inl values
  · rw [written,writeAttributeValue,← values]
    split_ifs
    · exact setSignal_values gateway t _ _
    · exact .inr rfl
  · rw [changed,← values]
    exact .inr rfl

/-- The publication of a writable signal calls the setter with what the reading shows. -/
theorem publish_setter (reading : Reading gateway.contract) (settable : writable reading.signal) :
    publish gateway s reading = setSignal gateway
      { s with lastWords := Function.update s.lastWords reading.signal.name (reading.result.map (·.1)) }
      (gateway.nodeId reading.signal) (shown reading) := by
  have ordinary : reading.signal.opcua.states = none := by
    simp only [writable,Bool.and_eq_true,Option.isNone_iff_eq_none] at settable
    exact settable.1
  have setter := (hasSetter_listed gateway reading.listed).trans settable
  have node := nodeIds_listed gateway reading.listed
  cases result : reading.result <;>
    simp [publish,ordinary,node,result,writeAttributeValue,setter,shown]

/-- Any other one starts no push. -/
theorem publish_quiet (reading : Reading gateway.contract) (other : writable reading.signal = false) :
    (publish gateway s reading).1.pushes = s.pushes := by
  have setter := (hasSetter_listed gateway reading.listed).trans other
  have written (t : State ν) (datavalue : DataValue) :
      (writeAttributeValue gateway t (gateway.nodeId reading.signal) datavalue).1.pushes = t.pushes := by
    simp [writeAttributeValue,setter,State.store]
  cases states : reading.signal.opcua.states with
  | none => cases result : reading.result <;> simp [publish,states,nodeIds_listed gateway reading.listed,result,written]
  | some declared =>
    obtain ⟨_,published⟩ | ⟨polled,_,⟨_,_,raised⟩ | ⟨code,_,⟨_,published⟩ | ⟨state,_,changed⟩⟩⟩ :=
      publish_outcomes gateway s states
    · rw [published,written]
    · rw [raised]
    · rw [published,written]
    · rw [changed]
      rfl

end

/-! ### Sources -/

section
variable {ν : Type} [DecidableEq ν] {site : Site ν}

/-- After the earlier ones the signal is the next to be read, the actions read it, and that
    is what comes of it. -/
def PolledAt (w₀ : World site) (actions earlier : List (Action ν)) (reading : Reading site.gateway.contract) : Prop :=
  ∃ answered later w rest, actions = earlier ++ .read answered :: later ∧ run step w₀ earlier = some w ∧
    w.unread = ⟨reading.signal,reading.listed⟩ :: rest ∧
      w.poll answered ⟨reading.signal,reading.listed⟩ = .ok reading

/-- One of the actions reads the signal, and that is what comes of it. -/
def Polled (w₀ : World site) (actions : List (Action ν)) (reading : Reading site.gateway.contract) : Prop :=
  ∃ earlier, PolledAt w₀ actions earlier reading

variable (site) in
/-- A client that may write the node's value asked for this one. -/
def Written (actions : List (Action ν)) (node : ν) (d : DataValue) : Prop :=
  ∃ items, .request items ∈ actions ∧ ∃ item ∈ items, item.reaches site.gateway = true ∧ item.node = node ∧
    item.datavalue = d

/-- What a node may show. -/
inductive Sourced (w₀ : World site) (actions : List (Action ν)) (node : ν) (d : DataValue) : Prop
  | polled (reading : Reading site.gateway.contract) (read : Polled w₀ actions reading)
      (own : site.gateway.nodeId reading.signal = node) (shows : d = shown reading)
  | written (asked : Written site actions node d)

/-- A push encodes, for a writable signal, a value that its node may show. -/
def PushSourced (w₀ : World site) (actions : List (Action ν)) (p : Push) : Prop :=
  p.signal ∈ site.gateway.contract.signals ∧ writable p.signal = true ∧ ∃ d,
    Sourced w₀ actions (site.gateway.nodeId p.signal) d ∧
      encodeValue p.signal.modbus d site.gateway.contract.metadata = .ok p.words

/-- An item of the request at hand, or of one that waits. -/
def Awaited (server : Server ν) (item : WriteItem ν) : Prop :=
  item ∈ server.pending ∨ ∃ items ∈ server.waiting, item ∈ items

variable {w₀ : World site} {actions : List (Action ν)}

theorem Polled.append {reading : Reading site.gateway.contract} (polled : Polled w₀ actions reading)
    (more : List (Action ν)) : Polled w₀ (actions ++ more) reading := by
  obtain ⟨earlier,answered,later,w,rest,rfl,reached,turn,read⟩ := polled
  exact ⟨earlier,answered,later ++ more,w,rest,by simp,reached,turn,read⟩

theorem Written.append {node : ν} {d : DataValue} (written : Written site actions node d) (more : List (Action ν)) :
    Written site (actions ++ more) node d := by
  obtain ⟨items,requested,rest⟩ := written
  exact ⟨items,List.mem_append_left _ requested,rest⟩

theorem Sourced.append {node : ν} {d : DataValue} (sourced : Sourced w₀ actions node d) (more : List (Action ν)) :
    Sourced w₀ (actions ++ more) node d := by
  cases sourced with
  | polled reading read own shows => exact .polled reading (read.append more) own shows
  | written asked => exact .written (asked.append more)

theorem PushSourced.append {p : Push} (sourced : PushSourced w₀ actions p) (more : List (Action ν)) :
    PushSourced w₀ (actions ++ more) p := by
  obtain ⟨listed,settable,d,source,encoded⟩ := sourced
  exact ⟨listed,settable,d,source.append more,encoded⟩

/-- After the actions everything that the gateway shows, pushes or is to publish or write
    has a source among them. -/
structure Grounded (w₀ : World site) (actions : List (Action ν)) (w : World site) : Prop where
  values : ∀ node d, w.server.state.values node = some d → Sourced w₀ actions node d
  pushes : ∀ p ∈ w.server.state.pushes, PushSourced w₀ actions p
  readings : ∀ reading ∈ w.readings, Polled w₀ actions reading
  asked : ∀ item, Awaited w.server item → ∃ items, .request items ∈ actions ∧ item ∈ items

variable {w : World site}

theorem Grounded.append (grounded : Grounded w₀ actions w) (more : List (Action ν)) :
    Grounded w₀ (actions ++ more) w where
  values node d found := (grounded.values node d found).append more
  pushes p member := (grounded.pushes p member).append more
  readings reading member := (grounded.readings reading member).append more
  asked item awaited := by
    obtain ⟨items,requested,member⟩ := grounded.asked item awaited
    exact ⟨items,List.mem_append_left _ requested,member⟩

/-- A change of the server keeps what it stores and pushes grounded. -/
theorem Grounded.serve (grounded : Grounded w₀ actions w) (server : Server ν) {node : ν} {d : DataValue}
    (source : Sourced w₀ actions node d)
    (values : server.state.values = w.server.state.values ∨
      server.state.values = Function.update w.server.state.values node (some d))
    (pushes : server.state.pushes = w.server.state.pushes ∨ ∃ p, PushSourced w₀ actions p ∧
      server.state.pushes = w.server.state.pushes ++ [p])
    (fewerItems : ∀ item, Awaited server item → Awaited w.server item) {readings : List (Reading site.gateway.contract)}
    (fewer : ∀ reading ∈ readings, reading ∈ w.readings) (ended : Bool) :
    Grounded w₀ actions { w with server, readings, ended } where
  values other d' found := by
    rcases values with kept | stored
    · exact grounded.values other d' (kept ▸ found)
    · rw [stored] at found
      by_cases here : other = node
      · subst here
        rw [Function.update_self,Option.some.injEq] at found
        exact found ▸ source
      · rw [Function.update_of_ne here] at found
        exact grounded.values other d' found
  pushes p member := by
    rcases pushes with kept | ⟨new,sourced,started⟩
    · exact grounded.pushes p (kept ▸ member)
    · rw [started,List.mem_append,List.mem_singleton] at member
      rcases member with old | rfl
      · exact grounded.pushes p old
      · exact sourced
  readings reading member := grounded.readings reading (fewer reading member)
  asked item awaited := grounded.asked item (fewerItems item awaited)

/-- What the setter accepts is of the value that it is called with. -/
theorem accept_sourced {s : State ν} {node : ν} {d : DataValue} (source : Sourced w₀ actions node d)
    (setter : hasSetter site.gateway node = true) {p : Push} (accepted : accept site.gateway s node d = .ok p) :
    PushSourced w₀ actions p := by
  obtain ⟨listed,rfl,encoded⟩ := accept_ok site.gateway s accepted
  rw [hasSetter_listed site.gateway listed] at setter
  exact ⟨listed,setter,d,source,encoded⟩

theorem Grounded.next (grounded : Grounded w₀ actions w) {server : Server ν}
    (moved : GatewayServer.step site.gateway w.server .next = some server) :
    Grounded w₀ actions { w with server } := by
  obtain ⟨item,rest,pending,moves⟩ := step_next_cases site.gateway moved
  have fewer {left : List (WriteItem ν)} (part : left <+: rest) (state : State ν) (other : WriteItem ν)
      (awaited : Awaited (.proceed state left w.server.waiting) other) : Awaited w.server other := by
    refine (mem_proceed.mp awaited).imp_left fun member => ?_
    rw [pending]
    exact List.mem_cons_of_mem _ (part.subset member)
  rcases moves with ⟨reaches,left,part,rfl⟩ | ⟨_,rfl⟩
  · obtain ⟨items,requested,asked⟩ := grounded.asked item (.inl (by rw [pending]; exact List.mem_cons_self))
    have source : Sourced w₀ actions item.node item.datavalue := .written ⟨items,requested,item,asked,reaches,rfl,rfl⟩
    have setter : hasSetter site.gateway item.node = true := by
      simp only [WriteItem.reaches,Bool.and_eq_true] at reaches
      exact reaches.2
    refine grounded.serve _ source ?_ ?_ (fewer part _) (fun _ member => member) w.ended
    · rw [proceed_state]
      exact setSignal_values site.gateway w.server.state _ _
    · rw [proceed_state]
      rcases setSignal_pushes site.gateway w.server.state item.node item.datavalue with kept | ⟨p,accepted,started⟩
      · exact .inl kept
      · exact .inr ⟨p,accept_sourced source setter accepted,started⟩
  · refine ⟨?_,?_,grounded.readings,fun other awaited => grounded.asked other (fewer List.prefix_rfl _ other awaited)⟩
    · rw [proceed_state]
      exact grounded.values
    · rw [proceed_state]
      exact grounded.pushes

theorem Grounded.request (grounded : Grounded w₀ actions w) (items : List (WriteItem ν)) {server : Server ν}
    (moved : GatewayServer.step site.gateway w.server (.request items) = some server) :
    Grounded w₀ (actions ++ [.request items]) { w with server } := by
  have later := grounded.append [.request items]
  simp only [GatewayServer.step,Option.some.injEq] at moved
  subst moved
  refine ⟨?_,?_,later.readings,fun item awaited => ?_⟩
  · rw [proceed_state]
    exact later.values
  · rw [proceed_state]
    exact later.pushes
  · rcases mem_proceed.mp awaited with pending | ⟨others,waits,member⟩
    · exact later.asked item (.inl pending)
    · rcases List.mem_append.mp waits with old | new
      · exact later.asked item (.inr ⟨others,old,member⟩)
      · rw [List.mem_singleton] at new
        exact ⟨items,by simp,new ▸ member⟩

theorem Grounded.publish (grounded : Grounded w₀ actions w) {reading : Reading site.gateway.contract}
    {rest : List (Reading site.gateway.contract)} (readings : w.readings = reading :: rest) (ended : Bool) :
    Grounded w₀ actions { w with
      server := { w.server with state := (publish site.gateway w.server.state reading).1 }
      readings := rest
      ended } := by
  have polled := grounded.readings reading (by rw [readings]; exact List.mem_cons_self)
  have source : Sourced w₀ actions (site.gateway.nodeId reading.signal) (shown reading) := .polled reading polled rfl rfl
  refine grounded.serve { w.server with state := (GatewayServer.publish site.gateway w.server.state reading).1 } source
    (publish_stores site.gateway w.server.state reading) ?_ (fun _ awaited => awaited) ?_ ended
  · cases settable : writable reading.signal with
    | false => exact .inl (publish_quiet site.gateway w.server.state reading settable)
    | true =>
      have setter := (hasSetter_listed site.gateway reading.listed).trans settable
      rw [publish_setter site.gateway w.server.state reading settable]
      rcases setSignal_pushes site.gateway _ (site.gateway.nodeId reading.signal) (shown reading) with
        kept | ⟨p,accepted,started⟩
      · exact .inl kept
      · exact .inr ⟨p,accept_sourced source setter accepted,started⟩
  · intro other member
    rw [readings]
    exact List.mem_cons_of_mem _ member

theorem Grounded.read (grounded : Grounded w₀ actions w) (reached : run step w₀ actions = some w) {answered : Bool}
    {s : Listed site} {rest : List (Listed site)} (turn : w.unread = s :: rest) {reading : Reading site.gateway.contract}
    (polled : w.poll answered s = .ok reading) :
    Grounded w₀ (actions ++ [.read answered]) { w with unread := rest, readings := w.readings ++ [reading] } := by
  have later := grounded.append [.read answered]
  refine ⟨later.values,later.pushes,fun other member => ?_,later.asked⟩
  rcases List.mem_append.mp member with old | new
  · exact later.readings other old
  · rw [List.mem_singleton] at new
    subst new
    rw [← poll_signal polled] at turn polled
    exact ⟨actions,answered,[],w,rest,rfl,reached,turn,polled⟩

/-- What a run from a world that shows and holds nothing shows and pushes is grounded. -/
theorem run_grounded (fresh : Grounded w₀ [] w₀) (reached : run step w₀ actions = some w) : Grounded w₀ actions w := by
  refine run_induction (P := Grounded w₀) fresh ?_ actions w reached
  intro actions w a w' before grounded moved
  have later := grounded.append [a]
  cases a with
  | traffic a =>
    obtain ⟨_,_,rfl⟩ := step_traffic moved
    exact ⟨later.values,later.pushes,later.readings,later.asked⟩
  | request items =>
    obtain ⟨_,done,rfl⟩ := step_request moved
    exact grounded.request items done
  | next =>
    obtain ⟨_,done,rfl⟩ := step_next moved
    exact later.next done
  | push i =>
    obtain ⟨_,_,_,rfl⟩ := step_push moved
    exact ⟨later.values,later.pushes,later.readings,later.asked⟩
  | pushReturns =>
    obtain ⟨_,_,rfl⟩ := step_pushReturns moved
    exact ⟨later.values,later.pushes,later.readings,later.asked⟩
  | round =>
    obtain ⟨_,_,_,rfl⟩ := step_round moved
    exact ⟨later.values,later.pushes,later.readings,later.asked⟩
  | read answered =>
    obtain ⟨_,s,rest,turn,⟨reading,polled,rfl⟩ | ⟨_,rfl⟩⟩ := step_read moved
    · exact grounded.read before turn polled
    · exact ⟨later.values,later.pushes,later.readings,later.asked⟩
  | publish =>
    obtain ⟨_,_,reading,rest,readings,rfl⟩ := step_publish moved
    exact later.publish readings _

theorem grounded_start : Grounded ({} : World site) [] {} := by
  constructor
  case asked =>
    rintro item (member | ⟨_,waits,_⟩)
    · exact absurd member List.not_mem_nil
    · exact absurd waits List.not_mem_nil
  all_goals intros; contradiction

/-- In every run from the start, each node shows a poll of its own signal or a client's
    item for it, and each write that the PLC is served is another master's or a push of
    such a value, encoded for the signal of its node. -/
theorem nothing_invented (site : Site ν) {actions : List (Action ν)} {w : World site}
    (reached : run step ({} : World site) actions = some w) :
    (∀ node d, w.server.state.values node = some d → Sourced ({} : World site) actions node d) ∧
    ∀ a ∈ traffic ({} : World site) actions, .traffic a ∈ actions ∨ ∃ p, PushSourced ({} : World site) actions p ∧
      a = .write 16 p.signal.modbus.addr p.words := by
  refine ⟨(run_grounded grounded_start reached).values,fun a shows => ?_⟩
  obtain ⟨earlier,b,later,t,u,rfl,before,moved,inside⟩ := mem_log shows
  cases b with
  | traffic b =>
    simp only [plantShows,List.mem_singleton] at inside
    subst inside
    exact .inl (by simp)
  | push i =>
    obtain ⟨p,found,_,_⟩ := step_push moved
    have sourced := (run_grounded grounded_start before).pushes p (List.mem_of_getElem? found)
    simp only [plantShows,found,Option.toList_some,List.flatMap_cons,List.flatMap_nil,List.append_nil] at inside
    exact .inr ⟨p,sourced.append _,mem_pushTraffic inside⟩
  | _ => cases inside

end

/-- A poll, a client's write of the speed setpoint and its push. -/
theorem shipped_nothing_invented :
    let actions := .traffic (.scan (1 / 100)) :: .round :: shippedPoll ++ [.request [setpointItem 1],.next,.push 0]
    ∃ w, run step ({} : World shippedSite) actions = some w ∧
      (∀ node d, w.server.state.values node = some d → Sourced ({} : World shippedSite) actions node d) ∧
      ∀ a ∈ traffic ({} : World shippedSite) actions, .traffic a ∈ actions ∨
        ∃ p, PushSourced ({} : World shippedSite) actions p ∧ a = .write 16 p.signal.modbus.addr p.words := by
  intro actions
  obtain ⟨w,reached⟩ := Option.isSome_iff_exists.mp
    (by decide +kernel : (run step ({} : World shippedSite) actions).isSome)
  exact ⟨w,reached,nothing_invented shippedSite reached⟩

end MockPlant.Provenance
