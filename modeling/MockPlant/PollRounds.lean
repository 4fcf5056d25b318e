import MockPlant.InputRegisters
import MockPlant.Provenance

/-!
Rounds of the poll loop. A round reads every signal of the contract once, in order, and
then publishes every reading, while the PLC scans, clients write and pushes go through
between any two of its steps. When it is complete each node shows a poll of this round,
or what a client has written to it in the round.
-/
namespace MockPlant.PollRounds
open MockPlant.Python MockPlant.Contract MockPlant.Codec MockPlant.Runs MockPlant.Projections MockPlant.GatewayServer
open MockPlant.RegisterMap MockPlant.ModbusLink MockPlant.StaleValues MockPlant.WholePlant MockPlant.Provenance

section
variable {ν : Type} [DecidableEq ν] {site : Site ν}

/-! ### Orderly worlds -/

/-- A request's items come to the setter before there is another request or a publication. -/
def Orderly (w : World site) : Action ν → Prop
  | .request items => StaleValues.Orderly site.gateway w.server (.request items)
  | .next => StaleValues.Orderly site.gateway w.server .next
  | .publish => w.server.pending = []
  | _ => True

instance : ∀ (w : World site) (a : Action ν), Decidable (Orderly w a)
  | w, .request items => inferInstanceAs (Decidable (StaleValues.Orderly site.gateway w.server (.request items)))
  | w, .next => inferInstanceAs (Decidable (StaleValues.Orderly site.gateway w.server .next))
  | w, .publish => inferInstanceAs (Decidable (w.server.pending = []))
  | _, .traffic _ | _, .push _ | _, .pushReturns _ | _, .round | _, .read _ => inferInstanceAs (Decidable True)

/-- An orderly run of the world is one of the server. -/
theorem server_orderly {w₀ w : World site} {actions : List (Action ν)} (reached : run step w₀ actions = some w)
    (orderly : Along step Orderly w₀ actions) :
    Along (GatewayServer.step site.gateway) (StaleValues.Orderly site.gateway) w₀.server (served w₀ actions) := by
  refine server_projects.along_log (fun w a w' moved ordered => ?_) reached orderly
  cases a with
  | request items => exact ⟨ordered,fun _ _ => trivial⟩
  | next => exact ⟨ordered,fun _ _ => trivial⟩
  | publish =>
    obtain ⟨_,_,reading,rest,readings,_⟩ := step_publish moved
    simp only [serverShows,readings,List.head?_cons,Option.toList_some,List.map_cons,List.map_nil]
    exact ⟨ordered,fun _ _ => trivial⟩
  | _ => trivial

theorem run_marks {actions : List (Action ν)} {w : World site} (reached : run step ({} : World site) actions = some w)
    (orderly : Along step Orderly ({} : World site) actions) :
    Steady site.gateway (served ({} : World site) actions) w.server :=
  run_steady rfl rfl (server_orderly reached orderly) (server_projects.run_log reached)

/-- An exception of the poll loop ends it for good. -/
theorem ended_mono {w w' : World site} {a : Action ν} (moved : step w a = some w') (running : w'.ended = false) :
    w.ended = false := by
  cases a with
  | traffic =>
    obtain ⟨_,_,rfl⟩ := step_traffic moved
    exact running
  | request =>
    obtain ⟨_,_,rfl⟩ := step_request moved
    exact running
  | next =>
    obtain ⟨_,_,rfl⟩ := step_next moved
    exact running
  | push =>
    obtain ⟨_,_,_,rfl⟩ := step_push moved
    exact running
  | pushReturns =>
    obtain ⟨_,_,rfl⟩ := step_pushReturns moved
    exact running
  | round => exact (step_round moved).1
  | read => exact (step_read moved).1
  | publish => exact (step_publish moved).1

/-! ### A round -/

/-- The node of a reading shows it, or what a client has asked for in the actions. -/
def Shows (actions : List (Action ν)) (w : World site) (r : Reading site.gateway.contract) : Prop :=
  w.server.state.values (site.gateway.nodeId r.signal) = some (shown r) ∨
    ∃ d, Written site actions (site.gateway.nodeId r.signal) d ∧
      w.server.state.values (site.gateway.nodeId r.signal) = some d

/-- What a step reads of the signal whose turn it is. -/
def readShows (w : World site) : Action ν → World site → List (Reading site.gateway.contract)
  | .read answered, _ => w.unread.head?.toList.flatMap fun s => (w.poll answered s).toOption.toList
  | _, _ => []

/-- The polls of a run, in their order. -/
def polls (w : World site) (actions : List (Action ν)) : List (Reading site.gateway.contract) :=
  log step readShows w actions

theorem polls_polled {w : World site} {actions : List (Action ν)} {r : Reading site.gateway.contract}
    (member : r ∈ polls w actions) : Polled w actions r := by
  obtain ⟨earlier,a,later,t,u,rfl,reached,moved,shows⟩ := mem_log member
  cases a with
  | read answered =>
    obtain ⟨_,s,rest,unread,_⟩ := step_read moved
    simp only [readShows,unread,List.head?_cons,Option.toList_some,List.flatMap_cons,List.flatMap_nil,List.append_nil,
      Option.mem_toList] at shows
    have polled := toOption_eq_ok.mp shows
    rw [← poll_signal polled] at unread polled
    exact ⟨earlier,answered,later,t,rest,rfl,reached,unread,polled⟩
  | _ => cases shows

/-- The actions of a round so far, with the readings published. -/
structure Round (w₀ : World site) (actions : List (Action ν)) (published : List (Reading site.gateway.contract))
    (w : World site) : Prop where
  polls : polls w₀ actions = published ++ w.readings
  order : (published ++ w.readings).map (·.signal) ++ w.unread.map (·.1) = site.gateway.contract.signals
  waits : published ≠ [] → w.unread = []
  coded : ∀ r ∈ published, ¬ Uncoded r
  shows : ∀ r ∈ published, Shows actions w r
  clients : published ≠ [] → ∀ item ∈ w.server.pending, ∃ items, .request items ∈ actions ∧ item ∈ items

variable {w₀ w : World site} {actions : List (Action ν)} {published : List (Reading site.gateway.contract)}

/-- A step that reads and publishes nothing keeps the round when no node loses what it shows. -/
theorem Round.keep (round : Round w₀ actions published w) (a : Action ν) {w' : World site}
    (quiet : PollRounds.polls w₀ (actions ++ [a]) = PollRounds.polls w₀ actions) (unread : w'.unread = w.unread)
    (readings : w'.readings = w.readings)
    (kept : ∀ node, w'.server.state.values node = w.server.state.values node ∨ ∃ item ∈ w.server.pending,
      item.reaches site.gateway = true ∧ item.node = node ∧ w'.server.state.values node = some item.datavalue)
    (clients : ∀ item ∈ w'.server.pending, item ∈ w.server.pending ∨ ∃ items, a = .request items ∧ item ∈ items) :
    Round w₀ (actions ++ [a]) published w' where
  polls := by rw [quiet,readings]; exact round.polls
  order := by rw [unread,readings]; exact round.order
  waits nonempty := by rw [unread]; exact round.waits nonempty
  coded := round.coded
  shows r member := by
    rcases kept (site.gateway.nodeId r.signal) with same | ⟨item,pending,reaches,node,value⟩
    · rcases round.shows r member with own | ⟨d,written,shows⟩
      · exact .inl (same.trans own)
      · exact .inr ⟨d,written.append [a],same.trans shows⟩
    · obtain ⟨items,requested,asked⟩ := round.clients (List.ne_nil_of_mem member) item pending
      exact .inr ⟨item.datavalue,⟨items,List.mem_append_left _ requested,item,asked,reaches,node,rfl⟩,value⟩
  clients nonempty item member := by
    rcases clients item member with old | ⟨items,rfl,asked⟩
    · obtain ⟨items,requested,asked⟩ := round.clients nonempty item old
      exact ⟨items,List.mem_append_left _ requested,asked⟩
    · exact ⟨items,by simp,asked⟩

theorem Round.next (round : Round w₀ actions published w)
    (quiet : PollRounds.polls w₀ (actions ++ [.next]) = PollRounds.polls w₀ actions) {server : Server ν}
    (alone : w.server.waiting = []) (reaches : ∀ item ∈ w.server.pending, item.reaches site.gateway = true)
    (goes : goesOn site.gateway w.server = true) (moved : GatewayServer.step site.gateway w.server .next = some server) :
    Round w₀ (actions ++ [.next]) published { w with server } := by
  obtain ⟨item,rest,pending,_⟩ := step_next_cases site.gateway moved
  have first : item ∈ w.server.pending := by rw [pending]; exact List.mem_cons_self
  rw [step_next_goesOn alone pending (reaches item first) goes moved]
  refine round.keep .next quiet rfl rfl (fun node => ?_) fun other member => ?_
  · rcases setSignal_values site.gateway w.server.state item.node item.datavalue with kept | stored
    · exact .inl (congrFun kept node)
    · by_cases here : item.node = node
      · subst here
        exact .inr ⟨item,first,reaches item first,rfl,by simp [stored]⟩
      · exact .inl (by simp [stored,Function.update_of_ne (Ne.symm here)])
  · rw [pending]
    exact .inl (List.mem_cons_of_mem _ member)

theorem Round.read (round : Round w₀ actions published w) {answered : Bool} {s : Listed site} {rest : List (Listed site)}
    (unread : w.unread = s :: rest) {reading : Reading site.gateway.contract} (polled : w.poll answered s = .ok reading)
    (reads : PollRounds.polls w₀ (actions ++ [.read answered]) = PollRounds.polls w₀ actions ++ [reading]) :
    Round w₀ (actions ++ [.read answered]) published
      { w with unread := rest, readings := w.readings ++ [reading] } := by
  have none : published = [] := by
    by_contra nonempty
    rw [round.waits nonempty] at unread
    cases unread
  subst none
  have signal : reading.signal = s.1 := congrArg Subtype.val (poll_signal polled)
  have order := round.order
  rw [unread,List.nil_append,List.map_cons] at order
  refine ⟨?_,?_,by simp,by simp,by simp,by simp⟩
  · rw [reads,round.polls]
    rfl
  · rw [List.nil_append,List.map_append,List.map_singleton,signal,List.append_assoc,List.singleton_append]
    exact order

/-- A publication that returns read what `int` takes. -/
theorem publish_returns {gateway : Gateway ν} {s : State ν} {reading : Reading gateway.contract}
    (returned : (publish gateway s reading).2.toOption.isSome) : ¬ Uncoded reading := by
  intro uncoded
  obtain ⟨_,_,_,_,⟨_,_,e,raised⟩ | ⟨coded,_⟩⟩ := publish_cases gateway s reading
  · rw [raised] at returned
    cases returned
  · exact coded uncoded

omit [DecidableEq ν] in
theorem signals_nodup (gateway : Gateway ν) : gateway.contract.signals.Nodup :=
  (names_distinct (validate_ok gateway.valid).2.1).of_map

theorem Round.publish (round : Round w₀ actions published w)
    (quiet : PollRounds.polls w₀ (actions ++ [.publish]) = PollRounds.polls w₀ actions) (settled : w.server.pending = [])
    (unmarked : w.server.state.externalWrites = ∅) (unread : w.unread = []) {reading : Reading site.gateway.contract}
    {rest : List (Reading site.gateway.contract)} (readings : w.readings = reading :: rest)
    (returned : (GatewayServer.publish site.gateway w.server.state reading).2.toOption.isSome) (ended : Bool) :
    Round w₀ (actions ++ [.publish]) (published ++ [reading]) { w with
      server := { w.server with state := (GatewayServer.publish site.gateway w.server.state reading).1 }
      readings := rest
      ended } := by
  have coded := publish_returns returned
  have order := round.order
  rw [readings,unread,List.append_cons] at order
  have polls := round.polls
  rw [← quiet,readings] at polls
  have node : site.gateway.nodeId reading.signal ∉ w.server.state.externalWrites := by
    rw [unmarked]
    exact Finset.notMem_empty _
  refine ⟨polls.trans (List.append_cons ..),by simpa [unread] using order,fun _ => unread,?_,?_,?_⟩
  · simp only [List.forall_mem_append,List.forall_mem_singleton]
    exact ⟨round.coded,coded⟩
  · simp only [List.forall_mem_append,List.forall_mem_singleton]
    refine ⟨fun r member => ?_,.inl ?_⟩
    · -- No signal is read twice, so this publication is for another node.
      have distinct := signals_nodup site.gateway
      rw [← order,List.map_nil,List.append_nil,List.map_append,List.map_append,List.append_assoc] at distinct
      have different : r.signal ≠ reading.signal := by
        intro same
        refine List.disjoint_of_nodup_append distinct (List.mem_map_of_mem member) ?_
        rw [same]
        exact List.mem_append_left _ (by simp)
      have other : site.gateway.nodeId r.signal ≠ site.gateway.nodeId reading.signal := fun equal =>
        different (site.gateway.apart _ r.listed _ reading.listed equal)
      have kept := publish_values_other site.gateway w.server.state node other
      rcases round.shows r member with own | ⟨d,written,shows⟩
      · exact .inl (kept.trans own)
      · exact .inr ⟨d,written.append _,kept.trans shows⟩
    · simp only [publish_values site.gateway w.server.state node coded,Function.update_self]
  · intro _ item member
    rw [settled] at member
    cases member

/-- A run without another round, from the beginning of one: while the poll loop is running,
    what it has read and published is of this round. -/
theorem run_round {before : List (Action ν)} (start : run step ({} : World site) (before ++ [.round]) = some w₀)
    (sole : .round ∉ actions) (orderly : Along step Orderly ({} : World site) (before ++ [.round] ++ actions))
    (reached : run step w₀ actions = some w) (running : w.ended = false) : ∃ published, Round w₀ actions published w := by
  refine run_induction (P := fun actions w => .round ∉ actions →
    Along step Orderly ({} : World site) (before ++ [.round] ++ actions) → w.ended = false →
    ∃ published, Round w₀ actions published w) ?_ ?_ actions w reached sole orderly running
  · intro _ _ _
    obtain ⟨t,_,moved⟩ := run_concat.mp start
    obtain ⟨_,_,readings,rfl⟩ := step_round moved
    exact ⟨[],by simp [polls,log,readings],by simp [readings],by simp,by simp,by simp,by simp⟩
  · intro actions w a w' reached ih moved sole orderly running
    rw [List.mem_append,not_or] at sole
    rw [← List.append_assoc] at orderly
    obtain ⟨earlier,here⟩ := along_concat.mp orderly
    have whole : run step ({} : World site) (before ++ [.round] ++ actions) = some w := by
      rw [run_append,start]
      exact reached
    have ordered := here w whole
    have steady := run_marks whole earlier
    obtain ⟨published,round⟩ := ih sole.1 earlier (ended_mono moved running)
    have grows : polls w₀ (actions ++ [a]) = polls w₀ actions ++ readShows w a w' := log_concat reached moved
    cases a with
    | traffic =>
      obtain ⟨_,_,rfl⟩ := step_traffic moved
      exact ⟨published,round.keep _ (grows.trans (List.append_nil _)) rfl rfl (fun _ => .inl rfl)
        fun _ member => .inl member⟩
    | request items =>
      obtain ⟨_,done,rfl⟩ := step_request moved
      rw [step_request_settled ordered.1 done]
      refine ⟨published,round.keep _ (grows.trans (List.append_nil _)) rfl rfl (fun _ => .inl rfl) fun item member => ?_⟩
      exact .inr ⟨items,rfl,member⟩
    | next =>
      obtain ⟨_,done,rfl⟩ := step_next moved
      exact ⟨published,round.next (grows.trans (List.append_nil _)) steady.alone steady.reaches ordered done⟩
    | push =>
      obtain ⟨_,_,_,rfl⟩ := step_push moved
      exact ⟨published,round.keep _ (grows.trans (List.append_nil _)) rfl rfl (fun _ => .inl rfl)
        fun _ member => .inl member⟩
    | pushReturns =>
      obtain ⟨_,_,rfl⟩ := step_pushReturns moved
      exact ⟨published,round.keep _ (grows.trans (List.append_nil _)) rfl rfl (fun _ => .inl rfl)
        fun _ member => .inl member⟩
    | round => exact absurd (by simp) sole.2
    | read =>
      obtain ⟨_,s,rest,unread,⟨reading,polled,rfl⟩ | ⟨_,rfl⟩⟩ := step_read moved
      · simp only [readShows,unread,List.head?_cons,Option.toList_some,List.flatMap_cons,List.flatMap_nil,List.append_nil,
          polled,Except.toOption] at grows
        exact ⟨published,round.read unread polled grows⟩
      · cases running
    | publish =>
      obtain ⟨_,unread,reading,rest,readings,rfl⟩ := step_publish moved
      have unmarked : w.server.state.externalWrites = ∅ := by
        rw [steady.marks,show w.server.pending = [] from ordered]
        rfl
      simp only [Bool.not_eq_false'] at running
      exact ⟨published ++ [reading],round.publish (grows.trans (List.append_nil _)) ordered unmarked unread readings
        running _⟩

/-- A round is complete when no signal is left to read and no reading to publish. -/
theorem Round.complete (round : Round w₀ actions published w) (read : w.unread = []) (passed : w.readings = []) :
    (PollRounds.polls w₀ actions).map (·.signal) = site.gateway.contract.signals ∧
      ∀ r ∈ PollRounds.polls w₀ actions, Polled w₀ actions r ∧ ¬ Uncoded r ∧ Shows actions w r := by
  have polls := round.polls
  have order := round.order
  rw [passed,List.append_nil] at polls
  rw [read,passed,List.append_nil,List.map_nil,List.append_nil] at order
  refine ⟨by rw [polls,order],fun r member => ⟨polls_polled member,?_,?_⟩⟩
  · exact round.coded r (polls ▸ member)
  · exact round.shows r (polls ▸ member)

/-- After a complete round in an orderly run its polls are those of the contract's signals,
    each read once and in the contract's order, and each node shows the poll of its signal, as
    a good value or a bad one, or what a client has written in the round. -/
theorem round_shows {before : List (Action ν)} (start : run step ({} : World site) (before ++ [.round]) = some w₀)
    (sole : .round ∉ actions) (orderly : Along step Orderly ({} : World site) (before ++ [.round] ++ actions))
    (reached : run step w₀ actions = some w) (running : w.ended = false) (read : w.unread = []) (passed : w.readings = []) :
    (polls w₀ actions).map (·.signal) = site.gateway.contract.signals ∧
      ∀ r ∈ polls w₀ actions, Polled w₀ actions r ∧ ¬ Uncoded r ∧ Shows actions w r := by
  obtain ⟨published,round⟩ := run_round start sole orderly reached running
  exact round.complete read passed

end

/-- A poll without an answer, and a client's write between the publications. -/
theorem shipped_round_shows :
    let actions := .read false :: List.replicate 4 (.read true) ++
      .publish :: .request [setpointItem 1] :: .next :: List.replicate 4 .publish
    ∃ w₀ w, run step ({} : World shippedSite) [.round] = some w₀ ∧ run step w₀ actions = some w ∧
      (polls w₀ actions).map (·.signal) = shippedSite.gateway.contract.signals ∧
        ∀ r ∈ polls w₀ actions, Polled w₀ actions r ∧ ¬ Uncoded r ∧ Shows actions w r := by
  intro actions
  obtain ⟨w₀,start⟩ := Option.isSome_iff_exists.mp
    (by decide +kernel : (run step ({} : World shippedSite) [.round]).isSome)
  have ends : (run step ({} : World shippedSite) ([.round] ++ actions)).map
      (fun w => (w.ended,w.unread.isEmpty,w.readings.isEmpty)) = some (false,true,true) := by decide +kernel
  obtain ⟨w,reached,final⟩ := Option.map_eq_some_iff.mp ends
  simp only [Prod.mk.injEq,List.isEmpty_iff] at final
  rw [run_append,start,Option.bind_some] at reached
  have orderly : Along step Orderly ({} : World shippedSite) ([] ++ [.round] ++ actions) := by decide +kernel
  exact ⟨w₀,w,start,reached,@round_shows _ _ _ _ _ _ [] start (by decide) orderly reached final.1 final.2.1 final.2.2⟩

end MockPlant.PollRounds
