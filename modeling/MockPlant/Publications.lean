import MockPlant.GatewayServer

/-!
Publications and clients' marks. A publication of a writable signal goes through the
setter, which takes it for a client's write while its node is marked. A mark is not
always taken off by the write that put it on: an item that never comes to the setter
leaves its mark to the next publication.
-/
namespace MockPlant.Publications
open MockPlant.Python MockPlant.Contract MockPlant.Marks MockPlant.Runs MockPlant.GatewayServer

section
variable {ν : Type} [DecidableEq ν] (gateway : Gateway ν)

/-- The publication of a writable signal is not taken for a client's write: it starts no
    push and raises nothing. -/
def Unmistaken (w : Server ν) : Action ν gateway.contract → Prop
  | .publish reading => writable reading.signal →
    (publish gateway w.state reading).2 = .ok () ∧ (publish gateway w.state reading).1.pushes = w.state.pushes
  | _ => True

/-- A publication is mistaken for a client's write exactly while a request has named its
    node since the last setter call for it. -/
theorem unmistaken_iff_not_standing {w₀ w : Server ν} {earlier : List (Action ν gateway.contract)}
    (fresh : w₀.state.externalWrites = ∅) (reached : run (step gateway) w₀ earlier = some w)
    (reading : Reading gateway.contract) :
    Unmistaken gateway w (.publish reading) ↔
      (writable reading.signal → ¬ Standing (gateway.nodeId reading.signal) (history gateway w₀ earlier)) := by
  refine forall_congr' fun settable => ?_
  obtain ⟨datavalue,call⟩ := publish_writable gateway w.state reading settable
  rw [call,← mem_marked_iff,← externalWrites_run gateway fresh reached]
  exact setSignal_quiet_iff gateway _ _ datavalue

/-- In a run no publication is mistaken for a client's write exactly when at every
    publication of a writable signal the setter has been called for its node since a
    request last named it. -/
theorem publications_unmistaken_iff {w₀ w : Server ν} {actions : List (Action ν gateway.contract)}
    (fresh : w₀.state.externalWrites = ∅) (reached : run (step gateway) w₀ actions = some w) :
    Along (step gateway) (Unmistaken gateway) w₀ actions ↔
      ∀ earlier reading later, actions = earlier ++ .publish reading :: later → writable reading.signal →
        ¬ Standing (gateway.nodeId reading.signal) (history gateway w₀ earlier) := by
  rw [along_iff]
  constructor
  · rintro all earlier reading later rfl
    rw [run_append] at reached
    obtain ⟨t,before,_⟩ := Option.bind_eq_some_iff.mp reached
    exact (unmistaken_iff_not_standing gateway fresh before reading).mp (all earlier _ later t rfl before)
  · intro settled earlier a later t split before
    cases a with
    | publish reading =>
      exact (unmistaken_iff_not_standing gateway fresh before reading).mpr (settled earlier reading later split)
    | request | next => trivial

end

/-! ### The shipped contract -/

/-- The gateway of the shipped contract, with the ids it declares. -/
def shippedGateway : Gateway String where
  contract := Shipped.tags
  valid := by decide +kernel
  nodeId := fun s => s.opcua.id
  apart := by decide +kernel

def setpointReading (result : Option (List ℕ × Value)) : Reading shippedGateway.contract where
  signal := Shipped.speedSetpoint
  listed := by decide +kernel
  result := result

theorem shipped_publications_unmistaken_iff :
    let actions : List (Action String shippedGateway.contract) := [.publish (setpointReading (some ([0],.float (.fin 0)))),
      .request [⟨"s=Conveyor1.SpeedSetpoint",{ value := some (.plain (.float (.fin (3 / 2)))) },true⟩],.next,
      .publish (setpointReading none)]
    Along (step shippedGateway) (Unmistaken shippedGateway) {} actions ↔
      ∀ earlier reading later, actions = earlier ++ .publish reading :: later → writable reading.signal →
        ¬ Standing (shippedGateway.nodeId reading.signal) (history shippedGateway {} earlier) := by
  intro actions
  obtain ⟨w,reached⟩ := Option.isSome_iff_exists.mp
    (by decide +kernel : (run (step shippedGateway) {} actions).isSome)
  exact publications_unmistaken_iff shippedGateway rfl reached

/-- A client's write of a value of the wrong type never comes to the setter. The next
    poll is taken for that client's write: a good one is pushed to the PLC, and a failed
    one raises, which ends the poll loop. -/
theorem refused_write_pushes_poll :
    let actions : List (Action String shippedGateway.contract) :=
      [.request [⟨"s=Conveyor1.SpeedSetpoint",{ value := some (.plain (.int 3)) },false⟩],.next]
    ∃ w, run (step shippedGateway) {} actions = some w ∧
      (publish shippedGateway w.state (setpointReading (some ([1500],.float (.fin (3 / 2)))))).1.pushes =
        [⟨Shipped.speedSetpoint,[1500]⟩] ∧
      raised (publish shippedGateway w.state (setpointReading none)).2 = some badWaitingForInitialData ∧
      ∀ result, ¬ Along (step shippedGateway) (Unmistaken shippedGateway) {}
        (actions ++ [.publish (setpointReading result)]) := by
  intro actions
  have reached : run (step shippedGateway) {} actions =
      some { state := markExternalWrite {} true ["s=Conveyor1.SpeedSetpoint"] } := rfl
  refine ⟨_,reached,by decide +kernel,by decide +kernel,fun result along => ?_⟩
  have standing : Standing "s=Conveyor1.SpeedSetpoint" (history shippedGateway {} actions) :=
    ⟨[],_,[],rfl,List.mem_singleton.mpr rfl,List.not_mem_nil⟩
  have unmistaken := (along_concat.mp along).2 _ reached
  exact (unmistaken_iff_not_standing shippedGateway rfl reached (setpointReading result)).mp unmistaken rfl standing

end MockPlant.Publications
