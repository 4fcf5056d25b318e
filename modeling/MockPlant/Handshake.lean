import MockPlant.ScanCommands

/-!
The command handshake over the blocks: what the gateway's `invoke` and the other
master's `command` read, compute and write. A read of the ack block is a read of
its two registers, and a write of the command block replaces the code and the
number and nothing else that the handshake looks at.
-/
namespace MockPlant.Handshake
open MockPlant.Python MockPlant.Contract MockPlant.ModbusServer MockPlant.Plc MockPlant.ScanCommands

def SEQ_MIN : ℕ := 1
def SEQ_MAX : ℕ := 0xFFFF

def nextSeq (current : ℕ) : ℕ := if current ≥ SEQ_MAX then SEQ_MIN else max (current + 1) SEQ_MIN

theorem nextSeq_ne (current : ℕ) : nextSeq current ≠ current := by
  unfold nextSeq SEQ_MAX SEQ_MIN
  split_ifs <;> omega

/-- The number of the other master's next command. -/
def rogueSeq (current : ℕ) : ℕ := (current + 1) % 65536

/-- Past the last number the gateway skips 0, which the other master uses. -/
example : (nextSeq 65535,rogueSeq 65535) = (1,0) := rfl

/-- The fields of a command block. -/
def commandFields (code : CmdCode) (arg0 : ℤ) (seq : ℕ) : String → Option ℕ
  | "cmd_code" => some code.toNat
  | "arg0_lo" => some (arg0 % 65536).toNat
  | "arg0_hi" => some (arg0 / 65536 % 65536).toNat
  | "seq" => some seq
  | _ => none

/-! ### Blocks on the wire -/

/-- The function code that reads a table. -/
def readCode (table : Table) : ℕ := if table = .input then 4 else 3

/-- `read_block`: the fields by name, as far as the server answers. -/
def readBlock (s : PlcState) (block : RegisterBlock) : Except ExcCode (String → Option ℕ) := do
  let words ← getValues s.memory (readCode block.table) block.base block.layout.length
  pure (fun name => (layoutIdx block.layout name).bind (fun i => words[i]?))

/-- `write_block`, one write request for the whole block. -/
def writeBlock (s : PlcState) (block : RegisterBlock) (fields : String → Option ℕ) : Option PlcState := do
  let words ← block.layout.mapM fields
  let memory ← (setValues s.memory 16 block.base words).toOption
  pure { s with memory }

/-! ### The masters -/

inductive Outcome
  | result (r : AckResult)
  | contended (current expected : ℕ)
  | timeout
  | modbusException
  | valueError
deriving DecidableEq, Repr

/-- Where an `invoke` stands. A write is applied once the server has served it, even
    when its answer has not come back. -/
inductive Phase
  | reading
  | writing (seq : ℕ) (applied : Bool)
  | polling (seq : ℕ)
  | done (outcome : Outcome)
deriving DecidableEq, Repr

structure Call where
  code : CmdCode
  arg0 : ℤ
  phase : Phase
deriving DecidableEq, Repr

/-- What `invoke` makes of the first ack number, with `_issued` after it. -/
def afterRead (issued : Option ℕ) (current : ℕ) : Option ℕ × Phase :=
  match issued with
  | none => (none,.writing (nextSeq current) false)
  | some expected =>
    if current ≠ expected then (some current,.done (.contended current expected))
    else (some expected,.writing (nextSeq current) false)

/-- What `invoke` makes of an ack poll. -/
def afterPoll (seq ackSeq ackResult : ℕ) : Phase :=
  if ackSeq = seq then
    match AckResult.ofNat? ackResult with
    | some r => .done (.result r)
    | none => .done .valueError
  else .polling seq

/-- The first read lets a block out unless the number differs from the one issued. -/
theorem afterRead_cases (issued : Option ℕ) (current : ℕ) :
    ((issued = none ∨ issued = some current) ∧ afterRead issued current = (issued,.writing (nextSeq current) false)) ∨
      ∃ expected, issued = some expected ∧ current ≠ expected ∧
        afterRead issued current = (some current,.done (.contended current expected)) := by
  cases issued with
  | none => exact .inl ⟨.inl rfl,rfl⟩
  | some expected =>
    by_cases same : current = expected
    · subst same
      exact .inl ⟨.inr rfl,by simp [afterRead]⟩
    · exact .inr ⟨expected,rfl,same,by simp [afterRead,same]⟩

/-- A poll ends the invoke when it finds the number, with the result if it is one. -/
theorem afterPoll_cases (seq ackSeq ackResult : ℕ) :
    (ackSeq ≠ seq ∧ afterPoll seq ackSeq ackResult = .polling seq) ∨
      (ackSeq = seq ∧ ∃ r : AckResult, ackResult = r.toNat ∧ afterPoll seq ackSeq ackResult = .done (.result r)) ∨
      (ackSeq = seq ∧ AckResult.ofNat? ackResult = none ∧ afterPoll seq ackSeq ackResult = .done .valueError) := by
  by_cases same : ackSeq = seq
  · cases known : AckResult.ofNat? ackResult with
    | none => exact .inr (.inr ⟨same,rfl,by simp [afterPoll,same,known]⟩)
    | some r => exact .inr (.inl ⟨same,r,AckResult.ofNat?_eq_some known,by simp [afterPoll,same,known]⟩)
  · exact .inl ⟨same,by simp [afterPoll,same]⟩

/-! ### The blocks as registers -/

/-- A contract whose command block has only the fields that a command fills, with
    the PLC built from it. -/
structure Plant where
  plc : Plc
  runnable : Runnable plc.contract
  built : Built plc
  layout : ∀ name ∈ plc.contract.commandBlock.layout, name ∈ ["cmd_code","arg0_lo","arg0_hi","seq"]

def shipped : Plant where
  plc := Shipped.plc
  runnable := shipped_runnable
  built := shipped_built
  layout := by decide +kernel

theorem mapM_fields {fields : String → Option ℕ} {layout : List String}
    (filled : ∀ name ∈ layout, (fields name).isSome) :
    ∃ words : List ℕ, layout.mapM fields = some words ∧ words.length = layout.length ∧
      ∀ (i : ℕ) (name : String), layout[i]? = some name → words[i]? = fields name := by
  induction layout with
  | nil => exact ⟨[],rfl,rfl,by simp⟩
  | cons field rest ih =>
    obtain ⟨w,here⟩ := Option.isSome_iff_exists.mp (filled field (by simp))
    obtain ⟨words,later,length,same⟩ := ih (fun name member => filled name (List.mem_cons_of_mem _ member))
    refine ⟨w :: words,by simp [List.mapM_cons,here,later],by simp [length],?_⟩
    intro i name found
    cases i with
    | zero =>
      cases found
      exact here.symm
    | succ i => exact same i name (by simpa using found)

theorem commandFields_filled (code : CmdCode) (arg0 : ℤ) (seq : ℕ) {name : String}
    (listed : name ∈ ["cmd_code","arg0_lo","arg0_hi","seq"]) : (commandFields code arg0 seq name).isSome := by
  simp only [List.mem_cons,List.not_mem_nil,or_false] at listed
  rcases listed with rfl | rfl | rfl | rfl <;> rfl

section
variable (plant : Plant) {s : PlcState} {r : Regs} (mapped : BlocksMapped plant.plc s)
  (before : regs plant.plc s = some r)
include mapped before

/-- Both blocks lie in one table, the holding registers. -/
theorem holding_exists : ∃ holding, s.memory .holding = some holding ∧
    (∀ i < plant.plc.contract.commandBlock.layout.length,
      (holding (plant.plc.contract.commandBlock.base + (i : ℕ))).isSome) ∧
    ∀ i < plant.plc.contract.ackBlock.layout.length,
      (holding (plant.plc.contract.ackBlock.base + (i : ℕ))).isSome := by
  obtain ⟨code,_,_,_,hCode,hSeq,hAckSeq,hAckResult,_⟩ := fields_exist plant.runnable plant.built
  obtain ⟨here,_⟩ := (regs_eq_some hCode hSeq hAckSeq hAckResult).mp before
  cases found : s.memory .holding with
  | none => simp [Memory.get,found] at here
  | some holding =>
    have inside (block : RegisterBlock) (i : ℕ) (bound : i < block.layout.length) :
        block.base + (i : ℕ) ∈ block.span := by
      simp only [Span.mem_def,RegisterBlock.span]
      omega
    refine ⟨holding,rfl,fun i bound => ?_,fun i bound => ?_⟩
    · simpa [Memory.get,found] using mapped _ (.inl (inside _ i bound))
    · simpa [Memory.get,found] using mapped _ (.inr (inside _ i bound))

/-- Reading the ack block reads its two registers. -/
theorem readBlock_regs : ∃ fields, readBlock s plant.plc.contract.ackBlock = .ok fields ∧
    fields "ack_seq" = some r.ackSeq ∧ fields "ack_result" = some r.ackResult := by
  obtain ⟨holding,found,_,ack⟩ := holding_exists plant mapped before
  obtain ⟨_,_,ackSeq,ackResult,hCode,hSeq,hAckSeq,hAckResult,_⟩ := fields_exist plant.runnable plant.built
  obtain ⟨_,_,seqWord,resultWord⟩ := (regs_eq_some hCode hSeq hAckSeq hAckResult).mp before
  have reader : funcTable (readCode plant.plc.contract.ackBlock.table) = some .holding := by
    rw [plant.runnable.ackTable]
    rfl
  obtain ⟨words,served,same⟩ := getValues_mapped reader found ack
  rw [plant.built.ackIdx] at hAckSeq hAckResult
  have bound {name : String} {i : ℕ} (listed : layoutIdx plant.plc.contract.ackBlock.layout name = some i) :
      i < plant.plc.contract.ackBlock.layout.length := (List.getElem?_eq_some_iff.mp (layoutIdx_getElem listed)).1
  refine ⟨_,by rw [readBlock,served]; rfl,?_,?_⟩
  · simp only [hAckSeq,Option.bind_some,same _ (bound hAckSeq)]
    simpa [Memory.get,found] using seqWord
  · simp only [hAckResult,Option.bind_some,same _ (bound hAckResult)]
    simpa [Memory.get,found] using resultWord

/-- Writing the command block replaces the code and the number. -/
theorem writeBlock_regs (code : CmdCode) (arg0 : ℤ) (seq : ℕ) :
    ∃ s', writeBlock s plant.plc.contract.commandBlock (commandFields code arg0 seq) = some s' ∧
      BlocksMapped plant.plc s' ∧ regs plant.plc s' = some { r with code := code.toNat, seq := seq } := by
  obtain ⟨holding,found,command,_⟩ := holding_exists plant mapped before
  obtain ⟨codeIdx,seqIdx,ackSeq,ackResult,hCode,hSeq,hAckSeq,hAckResult,_,_,_,inAckSeq,inAckResult⟩ :=
    fields_exist plant.runnable plant.built
  obtain ⟨_,_,seqWord,resultWord⟩ := (regs_eq_some hCode hSeq hAckSeq hAckResult).mp before
  obtain ⟨words,filled,length,same⟩ := mapM_fields (fun name member =>
    commandFields_filled code arg0 seq (plant.layout name member))
  have carried := setValues_mapped (rfl : funcTable 16 = some .holding) found (length ▸ command)
  have written {i : ℕ} {name : String} {w : ℕ} (listed : plant.plc.cmdIdx name = some i)
      (value : commandFields code arg0 seq name = some w) :
      holding.store plant.plc.contract.commandBlock.base words (plant.plc.contract.commandBlock.base + (i : ℕ)) =
        some w := by
    rw [plant.built.cmdIdx] at listed
    exact Registers.store_inside ((same i name (layoutIdx_getElem listed)).trans value)
  have kept {a : ℤ} (inAck : a ∈ plant.plc.contract.ackBlock.span) :
      holding.store plant.plc.contract.commandBlock.base words a = holding a := by
    have apart := (blocks_apart plant.runnable).1.symm.not_mem inAck
    simp only [Span.mem_def,RegisterBlock.span,not_and_or,not_le,not_lt] at apart
    exact Registers.store_outside (length ▸ apart)
  refine ⟨{ s with memory := Function.update s.memory .holding (some (holding.store _ words)) },?_,
    fun a inBlock => setValues_isSome carried (mapped a inBlock),(regs_eq_some hCode hSeq hAckSeq hAckResult).mpr ?_⟩
  · simp only [writeBlock,filled,carried,Except.toOption,Option.bind_eq_bind,Option.bind_some,Option.pure_def]
  · simp only [Memory.get,Function.update_self,Option.bind_some,written hCode rfl,written hSeq rfl,kept inAckSeq,
      kept inAckResult]
    simp only [Memory.get,found,Option.bind_some] at seqWord resultWord
    exact ⟨trivial,trivial,seqWord,resultWord⟩

end
end MockPlant.Handshake
