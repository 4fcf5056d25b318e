import MockPlant.Publications

/-!
Clients' writes and their pushes. A request marks its nodes as a set and each item uses a
mark up, so a node that one request names twice is marked for its first item only: the
second one is stored like a polled value, and the client is told that it was accepted.
-/
namespace MockPlant.Deliveries
open MockPlant.Python MockPlant.Contract MockPlant.Codec MockPlant.Marks MockPlant.Runs MockPlant.GatewayServer
open MockPlant.Publications

section
variable {ν : Type} [DecidableEq ν] (gateway : Gateway ν)

/-- A setter call for an item that returns starts one push, of the item's value to the
    registers of the node's signal; one that raises starts none and stores nothing. -/
structure Delivers (s : State ν) (item : WriteItem ν) : Prop where
  accepted : (setSignal gateway s item.node item.datavalue).2 = .ok () → ∃ signal words,
    signal ∈ gateway.contract.signals ∧ gateway.nodeId signal = item.node ∧
      encodeValue signal.modbus item.datavalue gateway.contract.metadata = .ok words ∧
      (setSignal gateway s item.node item.datavalue).1.pushes = s.pushes ++ [⟨signal,words⟩]
  raised : ∀ e, (setSignal gateway s item.node item.datavalue).2 = .error e →
    (setSignal gateway s item.node item.datavalue).1.pushes = s.pushes ∧
      (setSignal gateway s item.node item.datavalue).1.values = s.values

/-- A write is delivered exactly when the setter finds its node marked. -/
theorem delivers_iff (s : State ν) (item : WriteItem ν) : Delivers gateway s item ↔ item.node ∈ s.externalWrites := by
  constructor
  · intro delivers
    by_contra unmarked
    obtain ⟨returned,same⟩ := (setSignal_quiet_iff gateway s item.node item.datavalue).mpr unmarked
    obtain ⟨signal,words,_,_,_,pushed⟩ := delivers.accepted returned
    rw [same] at pushed
    simp at pushed
  · intro marked
    cases accepts : accept gateway s item.node item.datavalue with
    | ok push =>
      obtain ⟨listed,keyed,encoded⟩ := accept_ok gateway s accepts
      constructor
      · intro _
        refine ⟨push.signal,push.words,listed,keyed,encoded,?_⟩
        simp [setSignal,marked,accepts,State.store]
      · intro e raised
        simp [setSignal,marked,accepts] at raised
    | error e =>
      constructor
      · intro returned
        simp [setSignal,marked,accepts] at returned
      · intro e' _
        simp [setSignal,marked,accepts]

/-- An item that comes to the setter is delivered. -/
def Delivered (w : Server ν) : Action ν gateway.contract → Prop
  | .next => ∀ item rest, w.pending = item :: rest → item.reaches gateway = true → Delivers gateway w.state item
  | _ => True

/-- In a run every client write is delivered exactly when the setter, at each item that
    comes to it, has not been called for the item's node since a request last named it. -/
theorem deliveries_iff {w₀ : Server ν} (fresh : w₀.state.externalWrites = ∅)
    (actions : List (Action ν gateway.contract)) :
    Along (step gateway) (Delivered gateway) w₀ actions ↔
      ∀ earlier later t item rest, actions = earlier ++ .next :: later → run (step gateway) w₀ earlier = some t →
        t.pending = item :: rest → item.reaches gateway = true → Standing item.node (history gateway w₀ earlier) := by
  have standing {earlier : List (Action ν gateway.contract)} {t : Server ν}
      (before : run (step gateway) w₀ earlier = some t) (item : WriteItem ν) :
      Delivers gateway t.state item ↔ Standing item.node (history gateway w₀ earlier) := by
    rw [delivers_iff,externalWrites_run gateway fresh before,mem_marked_iff]
  rw [along_iff]
  constructor
  · intro all earlier later t item rest split before pending reaches
    exact (standing before item).mp (all earlier .next later t split before item rest pending reaches)
  · intro stands earlier a later t split before
    cases a with
    | next =>
      intro item rest pending reaches
      exact (standing before item).mpr (stands earlier later t item rest split before pending reaches)
    | request | publish => trivial

end

/-! ### The shipped contract -/

def setpointItem (q : ℚ) : WriteItem String :=
  ⟨"s=Conveyor1.SpeedSetpoint",{ value := some (.plain (.float (.fin q))) },true⟩

theorem shipped_deliveries_iff :
    let actions : List (Action String shippedGateway.contract) :=
      [.publish (setpointReading (some ([0],.float (.fin 0)))),.request [setpointItem (3 / 2)],.next,
        .request [setpointItem 70],.next]
    Along (step shippedGateway) (Delivered shippedGateway) {} actions ↔
      ∀ earlier later t item rest, actions = earlier ++ .next :: later → run (step shippedGateway) {} earlier = some t →
        t.pending = item :: rest → item.reaches shippedGateway = true →
          Standing item.node (history shippedGateway {} earlier) :=
  deliveries_iff shippedGateway rfl _

/-- Of two items for one node both are accepted and only the first one is pushed. -/
theorem second_item_not_pushed :
    let item := setpointItem (1 / 2)
    let before : List (Action String shippedGateway.contract) :=
      [.publish (setpointReading (some ([0],.float (.fin 0)))),.request [setpointItem (3 / 2),item],.next]
    ∃ w, run (step shippedGateway) {} before = some w ∧ w.pending = [item] ∧ item.reaches shippedGateway = true ∧
      w.state.pushes = [⟨Shipped.speedSetpoint,[1500]⟩] ∧
      (setSignal shippedGateway w.state item.node item.datavalue).2 = .ok () ∧
      (setSignal shippedGateway w.state item.node item.datavalue).1.pushes = [⟨Shipped.speedSetpoint,[1500]⟩] ∧
      ¬ Along (step shippedGateway) (Delivered shippedGateway) {} (before ++ [.next]) := by
  intro item before
  have summary : (run (step shippedGateway) {} before).map (fun t => (t.pending,t.state.pushes,t.state.externalWrites)) =
      some ([item],[⟨Shipped.speedSetpoint,[1500]⟩],∅) := by decide +kernel
  obtain ⟨w,reached,same⟩ := Option.map_eq_some_iff.mp summary
  simp only [Prod.mk.injEq] at same
  obtain ⟨pending,pushed,unmarked⟩ := same
  have reaches : item.reaches shippedGateway = true := by decide +kernel
  have unmarkedNode : item.node ∉ w.state.externalWrites := by
    rw [unmarked]
    exact Finset.notMem_empty _
  obtain ⟨returned,kept⟩ := (setSignal_quiet_iff shippedGateway w.state item.node item.datavalue).mpr unmarkedNode
  refine ⟨w,reached,pending,reaches,pushed,returned,kept.trans pushed,fun along => ?_⟩
  have delivers := (along_concat.mp along).2 w reached item [] pending reaches
  exact unmarkedNode ((delivers_iff shippedGateway w.state item).mp delivers)

end MockPlant.Deliveries
