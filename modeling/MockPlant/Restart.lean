import MockPlant.Recovery

/-!
A restart of the PLC. Its block registers are 0 again while the gateway expects the
number that it issued last, so the gateway's next invoke is refused, whatever the other
masters have sent since. But they number their commands from 0 on, and when they come to
the very number that the gateway expects, the restart and all of them go unnoticed.
-/
namespace MockPlant.Restart
open MockPlant.Python MockPlant.Contract MockPlant.Machine MockPlant.Plc MockPlant.ScanCommands MockPlant.Handshake
open MockPlant.Masters MockPlant.Attribution MockPlant.ExactlyOnce MockPlant.Recovery MockPlant.Runs

/-- After a restart the acknowledged number is how many foreign commands were executed. -/
theorem run_counted {plant : Plant} {w₀ w : World} {v₀ : View} (ready : Ready plant w₀ v₀) (rested : v₀.rogues = [])
    (restarted : v₀.regs.seq = 0 ∧ v₀.regs.ackSeq = 0) {actions : List Action} (spares : ∀ a ∈ actions, Spares plant a)
    (foreign : Along (step plant) (Seen plant Foreign) w₀ actions) (reached : run (step plant) w₀ actions = some w)
    (bounded : (executions (trace plant w₀ actions)).length < 65536) :
    ∃ v, Ready plant w v ∧ Driven v₀ (trace plant w₀ actions) v ∧
      v.regs.ackSeq = (executions (trace plant w₀ actions)).length := by
  have settled : v₀.regs.seq = v₀.regs.ackSeq := by rw [restarted.1,restarted.2]
  have small : v₀.regs.ackSeq < 65536 := by omega
  obtain ⟨v,ready',driven,fits⟩ := run_moves (I := fun trace v => Driven v₀ trace v ∧ v.regs.ackSeq < 65536) ready
    ⟨Driven.start rested settled,small⟩ (by
      rintro earlier v a events v' ⟨driven,fits⟩ here moves
      refine ⟨driven.moves here moves,?_⟩
      cases moves with
      | execute dt pending result =>
        -- The number executed is one that another master has made modulo 65536.
        rcases driven.next with ⟨same,_⟩ | ⟨_,numbered⟩
        · exact absurd same pending
        · show v.regs.seq < 65536
          rw [numbered,rogueSeq]
          omega
      | _ => exact fits) spares foreign reached
  refine ⟨v,ready',driven,?_⟩
  have counted := driven.counted
  rw [restarted.2] at counted
  omega

/-- After a restart and foreign commands, each executed, the acknowledged number is how many
    they are, and the gateway stands as before. -/
theorem after_restart {plant : Plant} {conveyor : Conveyor} {cnc : Cnc} {w₀ w₁ : World} {r : Regs} {foreign : List Action}
    (restarted : boot plant.plc.contract conveyor cnc = .ok (plant.plc,w₀.plc)) (rested : w₀.rogues = [])
    (spares : ∀ a ∈ foreign, Spares plant a) (others : Along (step plant) (Seen plant Foreign) w₀ foreign)
    (reached : run (step plant) w₀ foreign = some w₁) (after : regs plant.plc w₁.plc = some r)
    (executed : r.seq = r.ackSeq) (bounded : (foreignCodes (trace plant w₀ foreign)).length < 65536) :
    ∃ v, Ready plant w₁ v ∧ v.regs = r ∧ w₁.calls = w₀.calls ∧ w₁.issued = w₀.issued ∧
      r.ackSeq = (foreignCodes (trace plant w₀ foreign)).length := by
  obtain ⟨_,_,mapped,zero⟩ := boot_regs plant.runnable restarted
  obtain ⟨v₀,ready₀⟩ := ready_exists mapped
  obtain ⟨seen₀,issued₀,calls₀,rogues₀⟩ := view_eq_some.mp ready₀.seen
  have start : v₀.regs = ⟨0,0,0,0⟩ := Option.some.inj (seen₀.symm.trans zero)
  have settled : v₀.regs.seq = v₀.regs.ackSeq := by rw [start]
  -- While a command is still owed there are fewer executions than commands.
  have few : (executions (trace plant w₀ foreign)).length < 65536 := by
    obtain ⟨v,_,driven⟩ := run_driven ready₀ (rogues₀ ▸ rested) settled spares others reached
    have balance := congrArg List.length driven.executed
    simp only [List.length_append,List.length_map] at balance
    omega
  obtain ⟨v,ready,driven,counted⟩ := run_counted ready₀ (rogues₀ ▸ rested) (by rw [start]; exact ⟨rfl,rfl⟩) spares
    others reached few
  obtain ⟨seen,issued₁,calls₁,_⟩ := view_eq_some.mp ready.seen
  cases after.symm.trans seen
  refine ⟨v,ready,rfl,calls₁.trans (driven.calls.trans calls₀.symm),issued₁.trans (driven.issued.trans issued₀.symm),?_⟩
  rw [counted,← driven.codes executed,List.length_map]

/-- The next invoke is contended. It has written nothing, and the plant is as it goes without it. -/
def Refused (plant : Plant) (w u : World) (s : ℕ) (code : CmdCode) (arg0 : ℤ) (between : List Action) : Prop :=
  ∃ w' current, run (step plant) w (.call code arg0 :: (between ++ [.readAck w.calls.length])) = some w' ∧
    w'.calls = w.calls ++ [⟨code,arg0,.done (.contended current s)⟩] ∧ w'.plc = u.plc ∧
    trace plant w (.call code arg0 :: (between ++ [.readAck w.calls.length])) = []

/-- After a restart and foreign commands, each executed, the gateway's next invoke is
    refused exactly when they are not as many as the number that the gateway issued last. -/
theorem restart_noticed_iff {plant : Plant} {conveyor : Conveyor} {cnc : Cnc} {w₀ w₁ : World} {s : ℕ} {r : Regs}
    {foreign : List Action} (restarted : boot plant.plc.contract conveyor cnc = .ok (plant.plc,w₀.plc))
    (idle : ∀ call ∈ w₀.calls, ended call.phase) (issued : w₀.issued = some s)
    (rested : w₀.rogues = []) (spares : ∀ a ∈ foreign, Spares plant a)
    (others : Along (step plant) (Seen plant Foreign) w₀ foreign) (reached : run (step plant) w₀ foreign = some w₁)
    (after : regs plant.plc w₁.plc = some r) (executed : r.seq = r.ackSeq)
    (bounded : (foreignCodes (trace plant w₀ foreign)).length < 65536) :
    ∀ (between : List Action) (u : World) (code : CmdCode) (arg0 : ℤ), (∀ a ∈ between, Rests a) →
      (∀ a ∈ between, Spares plant a) → run (step plant) w₁ between = some u →
      (Refused plant w₁ u s code arg0 between ↔ (foreignCodes (trace plant w₀ foreign)).length ≠ s) := by
  obtain ⟨v,ready,rfl,sameCalls,sameIssued,count⟩ := after_restart restarted rested spares others reached after executed
    bounded
  rw [issued] at sameIssued
  intro between u code arg0 rests sparesBetween went
  rw [← count]
  constructor
  · rintro ⟨w',current,ends,calls,_⟩ same
    obtain ⟨first,_⟩ := run_first_read ready (sameCalls ▸ idle) executed rests sparesBetween went code arg0
    rw [sameIssued,same] at first
    have resumed : afterRead (some s) s = (some s,.writing (nextSeq s) false) := by simp [afterRead]
    rw [resumed,ends] at first
    cases first
    simp [lone] at calls
  · intro stranger
    obtain ⟨refused,silent⟩ := run_refused ready (sameCalls ▸ idle) executed sameIssued stranger rests sparesBetween
      went code arg0
    exact ⟨_,v.regs.ackSeq,refused,rfl,rfl,silent⟩

/-- The shipped plant right after a restart, with a gateway whose last invoke was acknowledged with 2. -/
def restartedWorld : World where
  plc := Shipped.booted
  issued := some 2
  calls := [⟨.start,0,.done (.result .ok)⟩]

theorem shipped_restart_noticed_iff :
    let foreign := [.rogueRead .stop,.rogueWrite 0,.scan (1 / 100)]
    ∃ w₁, run (step shipped) restartedWorld foreign = some w₁ ∧
      ∀ (between : List Action) (u : World) (code : CmdCode) (arg0 : ℤ), (∀ a ∈ between, Rests a) →
        (∀ a ∈ between, Spares shipped a) → run (step shipped) w₁ between = some u →
        (Refused shipped w₁ u 2 code arg0 between ↔ (foreignCodes (trace shipped restartedWorld foreign)).length ≠ 2) := by
  intro foreign
  have ends : (run (step shipped) restartedWorld foreign).map (fun w => regs shipped.plc w.plc) =
      some (some ⟨2,1,1,0⟩) := by decide +kernel
  obtain ⟨w₁,reached,after⟩ := Option.map_eq_some_iff.mp ends
  exact ⟨w₁,reached,@restart_noticed_iff shipped _ _ _ _ _ _ _ Shipped.boot_booted (by decide)
    rfl rfl (by decide +kernel) (by decide +kernel) reached after rfl (by decide +kernel)⟩

/-- Two foreign commands after the restart, and the gateway's next command goes out. -/
theorem restart_unnoticed :
    let foreign := [.rogueRead .stop,.rogueWrite 0,.scan (1 / 100),.rogueRead .start,.rogueWrite 0,.scan (1 / 100)]
    foreignCodes (trace shipped restartedWorld foreign) = [2,1] ∧
      (run (step shipped) restartedWorld (foreign ++ [.call .cncStart 0,.readAck 1])).map (·.calls) =
        some [⟨.start,0,.done (.result .ok)⟩,⟨.cncStart,0,.writing 3 false⟩] ∧
      ∃ w₁, run (step shipped) restartedWorld foreign = some w₁ ∧ ¬ Refused shipped w₁ w₁ 2 .cncStart 0 [] := by
  intro foreign
  have calls : (run (step shipped) restartedWorld (foreign ++ [.call .cncStart 0,.readAck 1])).map (·.calls) =
      some [⟨.start,0,.done (.result .ok)⟩,⟨.cncStart,0,.writing 3 false⟩] := by decide +kernel
  have before : (run (step shipped) restartedWorld foreign).map (·.calls) = some [⟨.start,0,.done (.result .ok)⟩] := by
    decide +kernel
  obtain ⟨w₁,reached,earlier⟩ := Option.map_eq_some_iff.mp before
  refine ⟨by decide +kernel,calls,w₁,reached,?_⟩
  rintro ⟨w',current,ends,contended,_⟩
  rw [run_append,reached,Option.bind_some] at calls
  rw [earlier,List.nil_append,List.length_singleton] at ends
  rw [ends,Option.map_some,contended,earlier] at calls
  simp at calls

end MockPlant.Restart
