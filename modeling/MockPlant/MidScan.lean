import MockPlant.RegisterMap

/-!
Writes that land in the middle of a scan. The scan computes from its snapshot alone,
which is a copy, and commits only to registers that the PLC owns, so a write to any
other register ends up where it would have ended up after the scan.
-/
namespace MockPlant.MidScan
open MockPlant.Python MockPlant.Contract MockPlant.Machine MockPlant.ModbusServer MockPlant.Plc MockPlant.ScanCommands
open MockPlant.Overlays MockPlant.RegisterMap

/-- A write request as it reaches the store. -/
structure WriteRequest where
  funcCode : ℕ
  address : ℤ
  values : List ℕ
deriving DecidableEq

def requests (s : PlcState) (writes : List WriteRequest) : PlcState :=
  writes.foldl (fun s w => request s w.funcCode w.address w.values) s

/-- `scan`, with write requests served after each of its parts. -/
def scanAmid (plc : Plc) (s : PlcState) (dt : ℚ) (afterInputs afterExecute afterOutputs afterConveyor : List WriteRequest) :
    Except PyError PlcState := do
  let (image,s) ← readInputs s
  let s := requests s afterInputs
  let outputs ← execute plc image
  let s := requests s afterExecute
  let s ← writeOutputs s outputs
  let s := requests s afterOutputs
  let conveyor ← s.conveyor.step dt
  let s := requests { s with conveyor } afterConveyor
  let cnc ← s.cnc.step dt
  pure { s with cnc }

/-- A request that names no register of a published signal or of the ack block. -/
def Clear (plc : Plc) (w : WriteRequest) : Prop :=
  ∀ t a, funcTable w.funcCode = some t → a ∈ Span.mk w.address (w.address + w.values.length) → ¬ Owned plc t a

theorem clear_iff {plc : Plc} {w : WriteRequest} : Clear plc w ↔ ∀ t ∈ funcTable w.funcCode,
    ∀ a ∈ (Span.mk w.address (w.address + w.values.length)).toList, ¬ Owned plc t a := by
  simp only [Clear,Span.mem_toList,Option.mem_def]
  exact forall_congr' fun t => ⟨fun clear code a => clear a code,fun clear a code => clear code a⟩

instance (plc : Plc) (w : WriteRequest) : Decidable (Clear plc w) := decidable_of_iff _ clear_iff.symm

/-! ### Requests on memory -/

/-- What a request leaves of a memory. -/
def store (m : Memory) (w : WriteRequest) : Memory :=
  match setValues m w.funcCode w.address w.values with
  | .ok m' => m'
  | .error _ => m

theorem store_ok {m m' : Memory} {w : WriteRequest} (done : setValues m w.funcCode w.address w.values = .ok m') :
    store m w = m' := by
  rw [store,done]

theorem store_refused {m : Memory} {w : WriteRequest}
    (refused : ¬ Names m w.funcCode (Span.mk w.address (w.address + w.values.length))) : store m w = m := by
  unfold store
  cases done : setValues m w.funcCode w.address w.values with
  | ok m' => exact absurd (setValues_iff.mp ⟨m',done⟩) refused
  | error e => rfl

/-- Requests change nothing but memory. -/
theorem requests_eq (s : PlcState) (writes : List WriteRequest) :
    requests s writes = { s with memory := writes.foldl store s.memory } := by
  induction writes generalizing s with
  | nil => rfl
  | cons w rest ih =>
    have first : request s w.funcCode w.address w.values = { s with memory := store s.memory w } := by
      unfold request store
      cases setValues s.memory w.funcCode w.address w.values <;> rfl
    have step : requests s (w :: rest) = requests (request s w.funcCode w.address w.values) rest := rfl
    rw [step,first,ih]
    rfl

section
variable {plc : Plc} {updates : List (Table × ℤ × ℕ)} (owned : ∀ u ∈ updates, Owned plc u.1 u.2.1)
include owned

/-- A clear request and the assignments of a scan name no register in common. -/
theorem written_apart {w : WriteRequest} (clear : Clear plc w) (p : Table × ℤ) :
    written w.funcCode w.address w.values p = none ∨ patch updates p = none := by
  obtain ⟨t,a⟩ := p
  by_cases named : funcTable w.funcCode = some t ∧ a ∈ Span.mk w.address (w.address + w.values.length)
  · refine .inr (patch_none fun word member => ?_)
    exact clear t a named.1 named.2 (owned _ member)
  · exact .inl (written_none fun table inside => named ⟨table,inside⟩)

/-- A clear request is served alike before and after the assignments. -/
theorem names_update {m m' : Memory} (updated : m.update updates = .ok m') {w : WriteRequest} (clear : Clear plc w) :
    Names m' w.funcCode (Span.mk w.address (w.address + w.values.length)) ↔
      Names m w.funcCode (Span.mk w.address (w.address + w.values.length)) := by
  refine exists_congr fun t => and_congr_right fun code => ?_
  rw [(update_tables updated).1 t]
  refine and_congr_right fun _ => forall₂_congr fun a inside => ?_
  have absent : patch updates (t,a) = none := patch_none fun word member => clear t a code inside (owned _ member)
  have same : m'.get t a = m.get t a := by
    have here := congrFun (cells_update updated) (t,a)
    rwa [overlay_none absent] at here
  rw [same]

/-- A clear request and the assignments can be made in either order. -/
theorem store_update {m m' : Memory} (updated : m.update updates = .ok m') {w : WriteRequest} (clear : Clear plc w) :
    (store m w).update updates = .ok (store m' w) := by
  have same := names_update owned updated clear
  by_cases served : Names m w.funcCode (Span.mk w.address (w.address + w.values.length))
  · obtain ⟨m₁,first⟩ := setValues_iff.mpr served
    obtain ⟨m₂,second⟩ := setValues_iff.mpr (same.mpr served)
    have tables : ∀ u ∈ updates, (m₁ u.1).isSome := by
      intro u member
      rw [setValues_tables first]
      exact (update_tables updated).2 u member
    obtain ⟨m₃,third⟩ := Memory.update_exists tables
    have words : cells m₃ = cells m₂ := by
      calc cells m₃ = overlay (cells m₁) (patch updates) := cells_update third
        _ = overlay (overlay (cells m) (written w.funcCode w.address w.values)) (patch updates) := by
          rw [cells_setValues first]
        _ = overlay (overlay (cells m) (patch updates)) (written w.funcCode w.address w.values) :=
          overlay_comm (written_apart owned clear)
        _ = overlay (cells m') (written w.funcCode w.address w.values) := by rw [cells_update updated]
        _ = cells m₂ := (cells_setValues second).symm
    have equal : m₃ = m₂ := by
      refine memory_ext (fun t => ?_) words
      rw [(update_tables third).1,setValues_tables first,setValues_tables second,(update_tables updated).1]
    rw [store_ok first,store_ok second,third,equal]
  · rw [store_refused served,store_refused fun later => served (same.mp later)]
    exact updated

theorem foldl_store_update {m m' : Memory} (updated : m.update updates = .ok m') {writes : List WriteRequest}
    (clear : ∀ w ∈ writes, Clear plc w) : (writes.foldl store m).update updates = .ok (writes.foldl store m') := by
  induction writes generalizing m m' with
  | nil => exact updated
  | cons w rest ih =>
    have first := store_update owned updated (clear w (by simp))
    exact ih first fun other member => clear other (List.mem_cons_of_mem _ member)

end

/-! ### Scans -/

/-- Without requests it is the scan. -/
theorem scanAmid_nil (plc : Plc) (s : PlcState) (dt : ℚ) : scanAmid plc s dt [] [] [] [] = scan plc s dt := rfl

/-- Write requests served between the parts of a scan leave what they leave after it. -/
theorem scan_amid_writes {contract : Contract} {plc : Plc} (created : Plc.new contract = .ok plc) {s t : PlcState} {dt : ℚ}
    (scanned : scan plc s dt = .ok t) {afterInputs afterExecute afterOutputs afterConveyor : List WriteRequest}
    (clear : ∀ w ∈ afterInputs ++ afterExecute ++ afterOutputs ++ afterConveyor, Clear plc w) :
    scanAmid plc s dt afterInputs afterExecute afterOutputs afterConveyor =
      .ok (requests t (afterInputs ++ afterExecute ++ afterOutputs ++ afterConveyor)) := by
  obtain ⟨_,built⟩ := new_built created
  obtain ⟨holding,out,memory,conveyor,cnc,hHolding,executed,updated,hConveyor,hCnc,rfl⟩ := scan_ok.mp scanned
  have owned : ∀ u ∈ out.memoryUpdates, Owned plc u.1 u.2.1 := fun u member => (execute_commits built executed u member).1
  have early : ∀ w ∈ afterInputs ++ afterExecute, Clear plc w := fun w member => clear w (by simp at member ⊢; tauto)
  have committed := foldl_store_update owned updated early
  simp only [List.foldl_append] at committed
  have inputs := readInputs_ok.mpr ⟨holding,hHolding,rfl,rfl⟩
  have wrote : writeOutputs (requests (requests { s with partPulse := false } afterInputs) afterExecute) out =
      .ok {
        memory := afterExecute.foldl store (afterInputs.foldl store memory)
        conveyor := (commanded s out).1
        cnc := (commanded s out).2
        partPulse := false } := by
    simp only [requests_eq]
    exact bind_eq_ok.mpr ⟨_,committed,rfl⟩
  simp only [scanAmid,bind_eq_ok,Prod.exists]
  refine ⟨_,_,inputs,out,executed,_,wrote,conveyor,?_,cnc,?_,?_⟩
  · simp only [requests_eq]
    exact hConveyor
  · simp only [requests_eq]
    exact hCnc
  · simp only [requests_eq,List.foldl_append]
    rfl

theorem shipped_scan_amid_writes :
    let afterInputs := [⟨16,10,[1500]⟩,⟨16,12,[0x3F80,0]⟩]
    let afterExecute := [⟨16,100,[1,0,0,1]⟩]
    let afterOutputs := [⟨6,99,[7]⟩]
    let afterConveyor := [⟨16,10,[1000]⟩]
    ∃ t, scan Shipped.plc Shipped.booted (1 / 100) = .ok t ∧
      scanAmid Shipped.plc Shipped.booted (1 / 100) afterInputs afterExecute afterOutputs afterConveyor =
        .ok (requests t (afterInputs ++ afterExecute ++ afterOutputs ++ afterConveyor)) := by
  intro afterInputs afterExecute afterOutputs afterConveyor
  obtain ⟨t,scanned⟩ := Option.isSome_iff_exists.mp
    (by decide +kernel : (scan Shipped.plc Shipped.booted (1 / 100)).toOption.isSome)
  exact ⟨t,toOption_eq_ok.mp scanned,scan_amid_writes Shipped.new_tags (toOption_eq_ok.mp scanned) (by decide +kernel)⟩

end MockPlant.MidScan
