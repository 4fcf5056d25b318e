import MockPlant.Python

/-!
The contract: signals, their registers and the command and ack blocks, and the
checks that loading runs on it. A contract that passes has pairwise disjoint
registers in every table, whatever order its entries stand in.
-/
namespace MockPlant.Contract
open MockPlant.Python
set_option linter.dupNamespace false

inductive CmdCode
  | none
  | start
  | stop
  | cncStart
  | cncReset
deriving DecidableEq, Repr

def CmdCode.toNat : CmdCode → ℕ
  | .none => 0
  | .start => 1
  | .stop => 2
  | .cncStart => 3
  | .cncReset => 4

inductive AckResult
  | ok
  | range
  | state
  | busy
deriving DecidableEq, Repr

def AckResult.toNat : AckResult → ℕ
  | .ok => 0
  | .range => 1
  | .state => 2
  | .busy => 3

/-- `AckResult(n)`, which raises `ValueError` on any other number. -/
def AckResult.ofNat? : ℕ → Option AckResult
  | 0 => some .ok
  | 1 => some .range
  | 2 => some .state
  | 3 => some .busy
  | _ => Option.none

@[simp] theorem AckResult.ofNat?_toNat (r : AckResult) : AckResult.ofNat? r.toNat = some r := by
  cases r <;> rfl

theorem AckResult.ofNat?_eq_some {n : ℕ} {r : AckResult} (known : AckResult.ofNat? n = some r) : n = r.toNat := by
  unfold AckResult.ofNat? at known
  split at known <;> cases known <;> rfl

inductive Table
  | holding
  | input
  | coil
  | discrete
  | other (name : String)
deriving DecidableEq, Repr

def Table.text : Table → String
  | .holding => "holding"
  | .input => "input"
  | .coil => "coil"
  | .discrete => "discrete"
  | .other name => name

inductive ModbusType
  | bool
  | uint16
  | int16
  | uint32
  | int32
  | float32
deriving DecidableEq, Repr

def ModbusType.text : ModbusType → String
  | .bool => "bool"
  | .uint16 => "uint16"
  | .int16 => "int16"
  | .uint32 => "uint32"
  | .int32 => "int32"
  | .float32 => "float32"

/-- `MODBUS_TYPE_WIDTH`: the registers a value takes. -/
def ModbusType.width : ModbusType → ℕ
  | .bool | .uint16 | .int16 => 1
  | .uint32 | .int32 | .float32 => 2

/-- A Python `range` of addresses. -/
structure Span where
  start : ℤ
  stop : ℤ
deriving DecidableEq, Repr

def Span.toList (span : Span) : List ℤ := (List.range (span.stop - span.start).toNat).map (fun (k : ℕ) => span.start + k)

instance : Membership ℤ Span := ⟨fun span a => span.start ≤ a ∧ a < span.stop⟩
instance (span : Span) (a : ℤ) : Decidable (a ∈ span) := inferInstanceAs (Decidable (_ ∧ _))

theorem Span.mem_def {span : Span} {a : ℤ} : a ∈ span ↔ span.start ≤ a ∧ a < span.stop := Iff.rfl

theorem Span.mem_toList {span : Span} {a : ℤ} : a ∈ span.toList ↔ a ∈ span := by
  simp only [toList,List.mem_map,List.mem_range,Span.mem_def]
  constructor
  · rintro ⟨k,inside,rfl⟩
    omega
  · rintro ⟨low,high⟩
    exact ⟨(a - span.start).toNat,by omega,by omega⟩

structure ModbusMapping where
  table : Table
  addr : ℤ
  type : ModbusType
  scale : ℚ := 1
deriving DecidableEq

def ModbusMapping.width (mapping : ModbusMapping) : ℕ := mapping.type.width
def ModbusMapping.span (mapping : ModbusMapping) : Span := ⟨mapping.addr,mapping.addr + mapping.width⟩

structure OpcUaMapping where
  id : String
  access : String
  type : Option String := none
  states : Option (List (ℤ × String)) := none
deriving DecidableEq

structure Signal where
  name : String
  modbus : ModbusMapping
  opcua : OpcUaMapping
deriving DecidableEq

structure RegisterBlock where
  name : String
  base : ℤ
  layout : List String
  table : Table := .holding
deriving DecidableEq

def RegisterBlock.span (block : RegisterBlock) : Span := ⟨block.base,block.base + block.layout.length⟩

inductive WordOrder
  | highFirst
  | lowFirst
  | other (name : String)
deriving DecidableEq, Repr

inductive ByteOrder
  | big
  | little
  | other (name : String)
deriving DecidableEq, Repr

structure Meta where
  wordOrder : WordOrder
  byteOrder : ByteOrder
  scanPeriodMs : ℕ
deriving DecidableEq

structure Contract where
  metadata : Meta
  signals : List Signal
  commandBlock : RegisterBlock
  ackBlock : RegisterBlock
deriving DecidableEq

def contractError (message : String) : PyError := .user "ContractError" message

/-! ### Validation -/

def checkOrders (metadata : Meta) : Except PyError Unit := do
  match metadata.wordOrder with
  | .other name =>
    .error (contractError ("word_order must be one of ('high_first', 'low_first'), got '" ++ name ++ "'"))
  | _ => pure ()
  match metadata.byteOrder with
  | .other name =>
    .error (contractError ("byte_order must be one of ('big', 'little'), got '" ++ name ++ "'"))
  | _ => pure ()

/-- The names that stand more than once, sorted. -/
def duplicateNames (signals : List Signal) : List String :=
  let names := signals.map (·.name)
  (names.eraseDups.filter (fun name => 1 < names.count name)).insertionSort (· ≤ ·)

def checkDuplicateNames (signals : List Signal) : Except PyError Unit :=
  match duplicateNames signals with
  | [] => .ok ()
  | dupes => .error (contractError ("duplicate signal name(s): " ++ ", ".intercalate dupes))

def checkSignalKind (signals : List Signal) : Except PyError Unit :=
  forM signals (fun s =>
    if s.opcua.type.isNone = s.opcua.states.isNone then
      .error (contractError (s.name ++ ": opcua needs exactly one of type or states"))
    else .ok ())

structure Entry where
  table : Table
  span : Span
  label : String
deriving DecidableEq

def Contract.entries (contract : Contract) : List Entry :=
  contract.signals.map (fun s => ⟨s.modbus.table,s.modbus.span,s.name⟩) ++
    [⟨contract.commandBlock.table,contract.commandBlock.span,"command_block"⟩,
      ⟨contract.ackBlock.table,contract.ackBlock.span,"ack_block"⟩]

def overlapError (a b : Entry) : PyError :=
  contractError ("overlapping modbus addresses on table '" ++ a.table.text ++ "': " ++
    a.label ++ " [" ++ toString a.span.start ++ "-" ++ toString (a.span.stop - 1) ++ "] overlaps " ++
    b.label ++ " [" ++ toString b.span.start ++ "-" ++ toString (b.span.stop - 1) ++ "]")

/-- The loop over neighbouring spans of one table, sorted by their start. -/
def checkNeighbours : List Entry → Except PyError Unit
  | a :: b :: rest => if a.span.stop > b.span.start then .error (overlapError a b) else checkNeighbours (b :: rest)
  | _ => .ok ()

/-- The spans of one table, sorted by start; like Python's sort this is stable. -/
def sortedSpans (entries : List Entry) (table : Table) : List Entry :=
  (entries.filter (fun e => e.table = table)).insertionSort (fun a b => a.span.start ≤ b.span.start)

def checkNoOverlaps (contract : Contract) : Except PyError Unit :=
  forM (contract.entries.map (·.table)).eraseDups (fun table => checkNeighbours (sortedSpans contract.entries table))

def validate (contract : Contract) : Except PyError Unit := do
  checkOrders contract.metadata
  checkDuplicateNames contract.signals
  checkNoOverlaps contract
  checkSignalKind contract.signals

/-! ### What a validated contract guarantees -/

/-- No address lies in both spans. -/
def Apart (a b : Span) : Prop := a.stop ≤ b.start ∨ b.stop ≤ a.start

instance (a b : Span) : Decidable (Apart a b) := inferInstanceAs (Decidable (_ ∨ _))

theorem Apart.symm {a b : Span} (apart : Apart a b) : Apart b a := Or.symm apart

theorem Apart.not_mem {a b : Span} (apart : Apart a b) {x : ℤ} (inside : x ∈ a) : x ∉ b := by
  simp only [Span.mem_def] at inside ⊢
  rcases apart with before | after <;> omega

/-- Neighbours that do not overlap leave no overlap at any distance, since the
    starts are sorted and no span ends before it starts. -/
theorem pairwise_of_checkNeighbours {entries : List Entry} (spans : ∀ e ∈ entries, e.span.start ≤ e.span.stop)
    (checked : checkNeighbours entries = .ok ()) : entries.Pairwise (fun a b => a.span.stop ≤ b.span.start) := by
  induction entries with
  | nil => exact List.Pairwise.nil
  | cons a tail ih =>
    cases tail with
    | nil => exact List.pairwise_singleton _ _
    | cons b rest =>
      have near : a.span.stop ≤ b.span.start := by
        by_contra overlap
        simp [checkNeighbours,not_le.mp overlap] at checked
      have later := ih (fun e member => spans e (List.mem_cons_of_mem _ member))
        (by simpa [checkNeighbours,not_lt.mpr near] using checked)
      refine List.Pairwise.cons (fun c member => ?_) later
      rcases List.mem_cons.mp member with rfl | far
      · exact near
      · have middle := spans b (by simp)
        have last := (List.pairwise_cons.mp later).1 c far
        omega

theorem entries_spans (contract : Contract) : ∀ e ∈ contract.entries, e.span.start ≤ e.span.stop := by
  intro e member
  simp only [Contract.entries,List.mem_append,List.mem_map,List.mem_cons,List.not_mem_nil,or_false] at member
  rcases member with ⟨s,_,rfl⟩ | rfl | rfl <;>
    simp [ModbusMapping.span,RegisterBlock.span]

/-- The overlap check separates every two entries of one table. -/
theorem entries_apart {contract : Contract} (checked : checkNoOverlaps contract = .ok ()) :
    contract.entries.Pairwise (fun a b => a.table = b.table → Apart a.span b.span) := by
  rw [List.pairwise_iff_forall_sublist]
  intro a b sublist same
  have aMember : a ∈ contract.entries := sublist.subset (by simp)
  have listed : a.table ∈ (contract.entries.map (·.table)).eraseDups :=
    List.mem_eraseDups.mpr (List.mem_map_of_mem aMember)
  have neighbours := forM_eq_ok.mp checked _ listed
  have perm : (sortedSpans contract.entries a.table).Perm (contract.entries.filter (fun e => e.table = a.table)) :=
    List.perm_insertionSort _ _
  have sorted := pairwise_of_checkNeighbours
    (fun e member => entries_spans contract e (List.mem_filter.mp (perm.mem_iff.mp member)).1) neighbours
  have apart : (contract.entries.filter (fun e => e.table = a.table)).Pairwise (fun a b => Apart a.span b.span) :=
    (perm.pairwise_iff (fun h => Apart.symm h)).mp (sorted.imp (fun before => .inl before))
  have kept : [a,b].Sublist (contract.entries.filter (fun e => e.table = a.table)) := by
    have filtered := sublist.filter (fun e => decide (e.table = a.table))
    simpa [same.symm] using filtered
  exact List.pairwise_iff_forall_sublist.mp apart kept

theorem validate_ok {contract : Contract} (valid : validate contract = .ok ()) :
    checkOrders contract.metadata = .ok () ∧ checkDuplicateNames contract.signals = .ok () ∧
      checkNoOverlaps contract = .ok () ∧ checkSignalKind contract.signals = .ok () := by
  simp only [validate,bind_eq_ok] at valid
  obtain ⟨_,orders,_,names,_,overlaps,kinds⟩ := valid
  exact ⟨orders,names,overlaps,kinds⟩

/-- Signals of a checked contract are told apart by their names. -/
theorem names_distinct {signals : List Signal} (checked : checkDuplicateNames signals = .ok ()) :
    (signals.map (·.name)).Nodup := by
  unfold checkDuplicateNames at checked
  split at checked
  case h_2 => cases checked
  case h_1 none =>
    rw [List.nodup_iff_count_le_one]
    intro name
    by_contra often
    have twice : 1 < (signals.map (·.name)).count name := not_le.mp often
    have listed : name ∈ duplicateNames signals := by
      simp only [duplicateNames,List.mem_insertionSort,List.mem_filter,List.mem_eraseDups,decide_eq_true_eq]
      exact ⟨List.count_pos_iff.mp (by omega),twice⟩
    rw [none] at listed
    cases listed

end MockPlant.Contract
