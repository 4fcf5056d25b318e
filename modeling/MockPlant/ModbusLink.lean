import MockPlant.GatewayServer
import MockPlant.Handshake
import MockPlant.RegisterMap

/-!
The gateway's Modbus link, polling and writing the signals of the contract. The PLC
keeps a signal in the table that the contract names. The link reads from the input
table when that is the name and from the holding table otherwise, and it writes to the
holding table always, so it meets the signals of the other tables at an address where
something else may stand.
-/
namespace MockPlant.ModbusLink
open MockPlant.Python MockPlant.Contract MockPlant.Codec MockPlant.Machine MockPlant.ModbusServer MockPlant.Plc
open MockPlant.Runs MockPlant.ScanCommands MockPlant.Handshake MockPlant.GatewayServer MockPlant.RegisterMap
set_option linter.dupNamespace false

/-! ### The link -/

/-- What the Modbus client raises on an address and a number of registers that it can
    put in no frame. -/
abbrev Framing := ℤ → ℕ → Except PyError Unit

/-- What ends a request: an exception of the client, or an exception code in the answer. -/
inductive LinkError
  | raised (e : PyError)
  | modbusException (code : ExcCode)
deriving DecidableEq

/-- `read_registers` -/
def readRegisters (framing : Framing) (s : PlcState) (table : Table) (addr : ℤ) (count : ℕ) :
    Except LinkError (List ℕ) :=
  match framing addr count with
  | .error e => .error (.raised e)
  | .ok () =>
    match getValues s.memory (readCode table) addr count with
    | .ok words => .ok words
    | .error code => .error (.modbusException code)

/-- `write_registers`, with the PLC after it. -/
def writeRegisters (framing : Framing) (s : PlcState) (addr : ℤ) (words : List ℕ) : PlcState × Except LinkError Unit :=
  match framing addr words.length with
  | .error e => (s,.error (.raised e))
  | .ok () =>
    match setValues s.memory 16 addr words with
    | .ok _ => (request s 16 addr words,.ok ())
    | .error code => (request s 16 addr words,.error (.modbusException code))

/-- `read_signal`, which makes a failed reading of an exception code. -/
def readSignal (framing : Framing) (contract : Contract) (s : PlcState) (signal : Signal)
    (listed : signal ∈ contract.signals) : Except PyError (Reading contract) :=
  match readRegisters framing s signal.modbus.table signal.modbus.addr signal.modbus.width with
  | .error (.raised e) => .error e
  | .error (.modbusException _) => .ok ⟨signal,listed,none⟩
  | .ok words => do
    let value ← decode signal.modbus words contract.metadata
    pure ⟨signal,listed,some (words,value)⟩

/-- `_push` -/
def push (framing : Framing) (s : PlcState) (p : Push) : PlcState × Except LinkError Unit :=
  writeRegisters framing s p.signal.modbus.addr p.words

theorem readSignal_ok {framing : Framing} {contract : Contract} {s : PlcState} {signal : Signal}
    {listed : signal ∈ contract.signals} {reading : Reading contract} {words : List ℕ} {value : Value}
    (read : readSignal framing contract s signal listed = .ok reading) (good : reading.result = some (words,value)) :
    framing signal.modbus.addr signal.modbus.width = .ok () ∧
      getValues s.memory (readCode signal.modbus.table) signal.modbus.addr signal.modbus.width = .ok words := by
  unfold readSignal readRegisters at read
  cases framed : framing signal.modbus.addr signal.modbus.width with
  | error e => simp [framed] at read
  | ok =>
    simp only [framed] at read
    cases served : getValues s.memory (readCode signal.modbus.table) signal.modbus.addr signal.modbus.width with
    | error code =>
      simp only [served,Except.ok.injEq] at read
      rw [← read] at good
      cases good
    | ok polled =>
      simp only [served,bind_eq_ok] at read
      obtain ⟨decoded,_,done⟩ := read
      cases done
      cases good
      exact ⟨rfl,rfl⟩

/-- A register that is mapped can be given any word, and nothing else changes. -/
theorem write_register (plc : Plc) {s : PlcState} {a : ℤ} (mapped : (s.memory.get .holding a).isSome) (v : ℕ) :
    ∃ t, run (serve plc) s [.write 16 a [v]] = some t ∧
      ∀ table a', t.memory.get table a' = if table = .holding ∧ a' = a then some v else s.memory.get table a' := by
  have exist : (s.memory .holding).isSome := by
    cases found : s.memory .holding with
    | none => simp [Memory.get,found] at mapped
    | some r => rfl
  have served : Names s.memory 16 (Span.mk a (a + [v].length)) := by
    refine ⟨.holding,rfl,exist,fun a' inside => ?_⟩
    obtain rfl : a' = a := by
      simp only [Span.mem_def,List.length_singleton] at inside
      omega
    exact mapped
  obtain ⟨m,done⟩ := setValues_iff.mpr served
  refine ⟨{ s with memory := m },by simp [run,serve,Plc.step,request,done],fun table a' => ?_⟩
  rw [setValues_stored done]
  by_cases here : table = .holding ∧ a' = a
  · obtain ⟨rfl,rfl⟩ := here
    simp [funcTable,Span.mem_def]
  · have away : ¬ (funcTable 16 = some table ∧ a' ∈ Span.mk a (a + [v].length)) := by
      rintro ⟨code,inside⟩
      cases code
      simp only [Span.mem_def,List.length_singleton] at inside
      exact here ⟨rfl,by omega⟩
    rw [if_neg away,if_neg here]

theorem width_pos (mapping : ModbusMapping) : 0 < mapping.width := by
  unfold ModbusMapping.width
  cases mapping.type <;> decide

theorem addr_mem_span (mapping : ModbusMapping) : mapping.addr ∈ mapping.span := by
  have := width_pos mapping
  simp only [Span.mem_def,ModbusMapping.span]
  omega

/-- Some word is not the one given. -/
theorem exists_word_ne (w : ℕ) : ∃ v, v < 65536 ∧ v ≠ w := by
  by_cases zero : w = 0
  · exact ⟨1,by decide,by omega⟩
  · exact ⟨0,by decide,by omega⟩

/-! ### Polls -/

/-- The reading of a signal is good and its words are those of the signal's registers. -/
def PollsOwn (framing : Framing) (contract : Contract) (signal : Signal) (listed : signal ∈ contract.signals)
    (s : PlcState) : Prop :=
  ∃ reading words value, readSignal framing contract s signal listed = .ok reading ∧
    reading.result = some (words,value) ∧ Holds s.memory signal.modbus words

/-- The read function of the link reads the table of a signal. -/
theorem pollsOwn_of_table {framing : Framing} {contract : Contract} {signal : Signal} {listed : signal ∈ contract.signals}
    {s : PlcState} (fixed : Fixed contract s.memory)
    (framed : framing signal.modbus.addr signal.modbus.width = .ok ())
    (code : funcTable (readCode signal.modbus.table) = some signal.modbus.table) :
    PollsOwn framing contract signal listed s := by
  have entry := signal_entry listed
  have names : Names s.memory (readCode signal.modbus.table)
      (Span.mk signal.modbus.addr (signal.modbus.addr + signal.modbus.width)) := by
    refine fixed.names.mpr ⟨_,code,⟨_,entry,rfl⟩,fun a inside => ?_⟩
    exact (fixed.addresses _ _).mpr ⟨_,entry,rfl,inside⟩
  obtain ⟨words,served⟩ := getValues_iff.mpr names
  obtain ⟨length,same⟩ := getValues_words served
  have isWords : IsWords signal.modbus.type words := by
    refine ⟨length,fun w member => ?_⟩
    obtain ⟨i,bound,here⟩ := List.getElem_of_mem member
    have word := same _ code i (length ▸ bound)
    rw [List.getElem?_eq_getElem bound,here] at word
    exact fixed.words _ _ _ word.symm
  obtain ⟨value,decoded⟩ := decode_isWords contract.metadata isWords
  refine ⟨⟨signal,listed,some (words,value)⟩,words,value,?_,rfl,length,same _ code⟩
  simp only [readSignal,readRegisters,framed,served,decoded,bind,Except.bind,pure,Except.pure]

/-- Any other table is read as the holding table, which shows once the two differ. -/
theorem not_pollsOwn {framing : Framing} {contract : Contract} {signal : Signal} {listed : signal ∈ contract.signals}
    {s : PlcState} (notInput : signal.modbus.table ≠ .input)
    (different : s.memory.get .holding signal.modbus.addr ≠ s.memory.get signal.modbus.table signal.modbus.addr) :
    ¬ PollsOwn framing contract signal listed s := by
  rintro ⟨reading,words,value,read,good,holds⟩
  obtain ⟨_,served⟩ := readSignal_ok read good
  have code : readCode signal.modbus.table = 3 := if_neg notInput
  rw [code] at served
  have width := width_pos signal.modbus
  have asked := (getValues_words served).2 .holding rfl 0 width
  have own := holds.2 0 width
  simp only [Nat.cast_zero,add_zero] at asked own
  exact different (asked.symm.trans own)

/-- The gateway polls a signal's own registers, at every state that a booted PLC comes to,
    exactly when the client can ask for them and their table is one of the two it reads. -/
theorem polls_own_iff {contract : Contract} {conveyor : Conveyor} {cnc : Cnc} {plc : Plc} {s₀ : PlcState}
    (booted : boot contract conveyor cnc = .ok (plc,s₀)) (framing : Framing) {signal : Signal}
    (listed : signal ∈ contract.signals) :
    (∀ actions s, (∀ a ∈ actions, Words a) → run (serve plc) s₀ actions = some s →
      PollsOwn framing contract signal listed s) ↔
    framing signal.modbus.addr signal.modbus.width = .ok () ∧
      (signal.modbus.table = .holding ∨ signal.modbus.table = .input) := by
  constructor
  · intro polls
    obtain ⟨reading,words,value,read,good,_⟩ := polls [] s₀ (by simp) rfl
    obtain ⟨framed,served⟩ := readSignal_ok read good
    refine ⟨framed,?_⟩
    by_contra elsewhere
    obtain ⟨notHolding,notInput⟩ := not_or.mp elsewhere
    have code : readCode signal.modbus.table = 3 := if_neg notInput
    rw [code] at served
    obtain ⟨_,table,_,mapped⟩ := getValues_iff.mp ⟨words,served⟩
    cases table
    -- A word that the signal's own first register does not hold goes to the holding register at its address.
    obtain ⟨v,word,different⟩ := exists_word_ne ((s₀.memory.get signal.modbus.table signal.modbus.addr).getD 0)
    obtain ⟨t,reached,changed⟩ := write_register plc (mapped _ (addr_mem_span signal.modbus)) v
    refine not_pollsOwn notInput ?_ (polls _ t (by simpa [Words] using word) reached)
    rw [changed,changed,if_pos ⟨rfl,rfl⟩,if_neg fun both => notHolding both.1]
    intro same
    rw [← same] at different
    exact different rfl
  · rintro ⟨framed,table⟩ actions s words reached
    refine pollsOwn_of_table (run_fixed booted words reached) framed ?_
    rcases table with holding | input
    · rw [holding]
      rfl
    · rw [input]
      rfl

/-! ### Pushes -/

/-- A push either puts its words into its signal's registers and nothing anywhere else, or
    it fails and puts nothing anywhere. -/
structure PushSound (framing : Framing) (s : PlcState) (p : Push) : Prop where
  served : (push framing s p).2 = .ok () → Holds (push framing s p).1.memory p.signal.modbus p.words ∧
    ∀ table a, ¬ (table = p.signal.modbus.table ∧ a ∈ p.signal.modbus.span) →
      (push framing s p).1.memory.get table a = s.memory.get table a
  failed : ∀ e, (push framing s p).2 = .error e → (push framing s p).1.memory = s.memory

/-- A push goes through exactly when its frame is sent and all the addresses of its signal
    are mapped in the holding table. -/
theorem push_served {framing : Framing} {contract : Contract} {s : PlcState} (fixed : Fixed contract s.memory) {p : Push}
    (length : p.words.length = p.signal.modbus.width) :
    (push framing s p).2 = .ok () ↔ framing p.signal.modbus.addr p.signal.modbus.width = .ok () ∧
      ∀ a ∈ p.signal.modbus.span, ∃ e ∈ contract.entries, e.table = .holding ∧ a ∈ e.span := by
  have names : (∃ m, setValues s.memory 16 p.signal.modbus.addr p.words = .ok m) ↔
      ∀ a ∈ p.signal.modbus.span, ∃ e ∈ contract.entries, e.table = .holding ∧ a ∈ e.span := by
    rw [setValues_iff,fixed.names,length]
    constructor
    · rintro ⟨table,code,_,mapped⟩ a inside
      cases code
      exact (fixed.addresses _ _).mp (mapped a inside)
    · intro mapped
      obtain ⟨e,entry,table,_⟩ := mapped _ (addr_mem_span p.signal.modbus)
      exact ⟨.holding,rfl,⟨e,entry,table⟩,fun a inside => (fixed.addresses _ _).mpr (mapped a inside)⟩
  rw [← names,push,writeRegisters,length]
  cases framing p.signal.modbus.addr p.signal.modbus.width with
  | error e => simp
  | ok => cases setValues s.memory 16 p.signal.modbus.addr p.words <;> simp

theorem push_state {framing : Framing} {s : PlcState} {p : Push} (served : (push framing s p).2 = .ok ()) (table : Table)
    (a : ℤ) : (push framing s p).1.memory.get table a =
      if table = .holding ∧ a ∈ Span.mk p.signal.modbus.addr (p.signal.modbus.addr + p.words.length)
        then p.words[(a - p.signal.modbus.addr).toNat]? else s.memory.get table a := by
  unfold push writeRegisters at served ⊢
  cases framed : framing p.signal.modbus.addr p.words.length with
  | error e => simp [framed] at served
  | ok =>
    cases done : setValues s.memory 16 p.signal.modbus.addr p.words with
    | error code => simp [framed,done] at served
    | ok m =>
      simp only [request,done]
      rw [setValues_stored done]
      by_cases here : table = .holding
      · simp [here,funcTable]
      · simp [here,funcTable,Ne.symm here]

theorem push_failed {framing : Framing} {s : PlcState} {p : Push} {e : LinkError} (failed : (push framing s p).2 = .error e) :
    (push framing s p).1 = s := by
  unfold push writeRegisters at failed ⊢
  cases framed : framing p.signal.modbus.addr p.words.length with
  | error e => rfl
  | ok =>
    cases done : setValues s.memory 16 p.signal.modbus.addr p.words with
    | error code => simp [request,done]
    | ok m => simp [framed,done] at failed

/-- A push of a signal of another table changes a holding register once that holds another word. -/
theorem not_pushSound {framing : Framing} {s : PlcState} {p : Push} (length : p.words.length = p.signal.modbus.width)
    (served : (push framing s p).2 = .ok ()) (notHolding : p.signal.modbus.table ≠ .holding)
    (different : s.memory.get .holding p.signal.modbus.addr ≠ p.words[0]?) : ¬ PushSound framing s p := by
  intro sound
  have kept := (sound.served served).2 .holding p.signal.modbus.addr fun both => notHolding both.1.symm
  have inside := addr_mem_span p.signal.modbus
  rw [ModbusMapping.span,← length] at inside
  rw [push_state served,if_pos ⟨rfl,inside⟩,sub_self,Int.toNat_zero] at kept
  exact different kept.symm

/-- A push stays with its signal where it goes through for a signal of the holding table alone. -/
theorem pushSound_of_holding {framing : Framing} {s : PlcState} {p : Push} (length : p.words.length = p.signal.modbus.width)
    (holding : (push framing s p).2 = .ok () → p.signal.modbus.table = .holding) : PushSound framing s p := by
  refine ⟨fun served => ?_,fun e failed => by rw [push_failed failed]⟩
  have whole : Span.mk p.signal.modbus.addr (p.signal.modbus.addr + p.words.length) = p.signal.modbus.span := by
    rw [length]
    rfl
  refine ⟨⟨length,fun i bound => ?_⟩,fun table a outside => ?_⟩
  · have inside : p.signal.modbus.addr + (i : ℤ) ∈ p.signal.modbus.span := by
      simp only [Span.mem_def,ModbusMapping.span]
      omega
    rw [push_state served,whole,if_pos ⟨holding served,inside⟩]
    congr 1
    omega
  · rw [push_state served,whole,if_neg]
    rintro ⟨rfl,inside⟩
    exact outside ⟨(holding served).symm,inside⟩

/-- A push stays with its signal, at every state that a booted PLC comes to, exactly when
    the signal is in the holding table or the push cannot go through: the client sends no
    such frame, or the contract leaves an address of the signal unmapped in that table. -/
theorem push_sound_iff {ν : Type} [DecidableEq ν] {gateway : Gateway ν} {conveyor : Conveyor} {cnc : Cnc} {plc : Plc}
    {s₀ : PlcState} (booted : boot gateway.contract conveyor cnc = .ok (plc,s₀)) (framing : Framing) {st : State ν}
    {node : ν} {datavalue : DataValue} {p : Push} (accepted : accept gateway st node datavalue = .ok p) :
    encodeValue p.signal.modbus datavalue gateway.contract.metadata = .ok p.words ∧
    ((∀ actions s, (∀ a ∈ actions, Words a) → run (serve plc) s₀ actions = some s → PushSound framing s p) ↔
      p.signal.modbus.table = .holding ∨ framing p.signal.modbus.addr p.signal.modbus.width ≠ .ok () ∨
        ∃ a ∈ p.signal.modbus.span, ∀ e ∈ gateway.contract.entries, e.table = .holding → a ∉ e.span) := by
  obtain ⟨listed,_,encoded⟩ := accept_ok gateway st accepted
  have length : p.words.length = p.signal.modbus.width := (encodeValue_isWords encoded).1
  refine ⟨encoded,?_,?_⟩
  · intro sound
    by_contra elsewhere
    simp only [not_or,not_not,not_exists,not_and,not_forall,exists_prop] at elsewhere
    obtain ⟨notHolding,framed,taken⟩ := elsewhere
    obtain ⟨_,_,fixed⟩ := boot_fixed booted
    have mapped : (s₀.memory.get .holding p.signal.modbus.addr).isSome :=
      (fixed.addresses _ _).mpr (taken _ (addr_mem_span p.signal.modbus))
    obtain ⟨v,word,different⟩ := exists_word_ne (p.words[0]?.getD 0)
    obtain ⟨t,reached,changed⟩ := write_register plc mapped v
    have words : ∀ a ∈ [Traffic.write 16 p.signal.modbus.addr [v]], Words a := by simpa [Words] using word
    have served := (push_served (run_fixed booted words reached) length).mpr ⟨framed,taken⟩
    refine not_pushSound length served notHolding ?_ (sound _ t words reached)
    rw [changed,if_pos ⟨rfl,rfl⟩]
    intro same
    rw [← same] at different
    exact different rfl
  · intro apart actions s words reached
    refine pushSound_of_holding length fun served => ?_
    have goes := (push_served (run_fixed booted words reached) length).mp served
    rcases apart with holding | unframed | ⟨a,inside,unmapped⟩
    · exact holding
    · exact absurd goes.1 unframed
    · obtain ⟨e,entry,table,here⟩ := goes.2 a inside
      exact absurd here (unmapped e entry table)

/-! ### A lamp on a coil -/

/-- The addresses of a Modbus frame have 16 bits. -/
def modbusFraming : Framing := fun addr count =>
  if 0 ≤ addr ∧ addr + count ≤ 65536 then .ok () else .error .valueError

/-- A coil with the address of the command block's number, which loading accepts. -/
def lamp : Signal where
  name := "Line.Lamp"
  modbus := { table := .coil, addr := 103, type := .bool }
  opcua := { id := "s=Line.Lamp", access := "RW", type := some "Boolean" }

def lampContract : Contract := { Shipped.tags with signals := Shipped.tags.signals ++ [lamp] }

def lampBoot : Plc × PlcState := (boot lampContract Shipped.conveyor Shipped.cnc).toOption.get (by decide +kernel)

theorem boot_lamp : boot lampContract Shipped.conveyor Shipped.cnc = .ok (lampBoot.1,lampBoot.2) :=
  toOption_eq_ok.mp (Option.some_get _).symm

def lampGateway : Gateway String where
  contract := lampContract
  valid := by decide +kernel
  nodeId := fun s => s.opcua.id
  apart := by decide +kernel

theorem lamp_listed : lamp ∈ lampContract.signals := by decide +kernel

def lampState : State String := { lastWords := fun name => if name = "Line.Lamp" then some [0] else none }

def lampOn : DataValue := { value := some (.plain (.bool true)) }

theorem lamp_accepted : accept lampGateway lampState "s=Line.Lamp" lampOn = .ok ⟨lamp,[1]⟩ := by decide +kernel

theorem lamp_polls_own_iff :
    (∀ actions s, (∀ a ∈ actions, Words a) → run (serve lampBoot.1) lampBoot.2 actions = some s →
      PollsOwn modbusFraming lampContract lamp lamp_listed s) ↔
    modbusFraming 103 1 = .ok () ∧ (lamp.modbus.table = .holding ∨ lamp.modbus.table = .input) :=
  polls_own_iff boot_lamp modbusFraming lamp_listed

/-- The lamp's coil is 0 and its reading is the number of a command. -/
theorem lamp_reads_command :
    ∃ s, run (serve lampBoot.1) lampBoot.2 [.write 16 100 [1,0,0,7]] = some s ∧
      (readSignal modbusFraming lampContract s lamp lamp_listed).toOption.map (·.result) =
        some (some ([7],.bool true)) ∧
      s.memory.get .coil 103 = some 0 ∧ ¬ PollsOwn modbusFraming lampContract lamp lamp_listed s := by
  refine ⟨_,rfl,by decide +kernel,by decide +kernel,?_⟩
  rintro ⟨reading,words,value,read,good,holds⟩
  obtain ⟨_,served⟩ := readSignal_ok read good
  have polled : getValues (request lampBoot.2 16 100 [1,0,0,7]).memory (readCode lamp.modbus.table) lamp.modbus.addr
      lamp.modbus.width = .ok [7] := by decide +kernel
  cases polled.symm.trans served
  have own := holds.2 0 (by decide)
  have coil : (request lampBoot.2 16 100 [1,0,0,7]).memory.get .coil 103 = some 0 := by decide +kernel
  rw [show lamp.modbus.addr + ((0 : ℕ) : ℤ) = 103 from rfl] at own
  cases own.trans coil

theorem lamp_push_sound_iff :
    encodeValue lamp.modbus lampOn lampContract.metadata = .ok [1] ∧
    ((∀ actions s, (∀ a ∈ actions, Words a) → run (serve lampBoot.1) lampBoot.2 actions = some s →
        PushSound modbusFraming s ⟨lamp,[1]⟩) ↔
      lamp.modbus.table = .holding ∨ modbusFraming 103 1 ≠ .ok () ∨
        ∃ a ∈ lamp.modbus.span, ∀ e ∈ lampContract.entries, e.table = .holding → a ∉ e.span) :=
  @push_sound_iff _ _ lampGateway _ _ _ _ boot_lamp modbusFraming _ _ _ _ lamp_accepted

/-- Switching the lamp on issues a command and leaves the lamp as it is. -/
theorem lamp_push_issues_command :
    accept lampGateway lampState "s=Line.Lamp" lampOn = .ok ⟨lamp,[1]⟩ ∧
      (push modbusFraming lampBoot.2 ⟨lamp,[1]⟩).2 = .ok () ∧ lampBoot.2.memory.get .holding 103 = some 0 ∧
      (push modbusFraming lampBoot.2 ⟨lamp,[1]⟩).1.memory.get .holding 103 = some 1 ∧
      (push modbusFraming lampBoot.2 ⟨lamp,[1]⟩).1.memory.get .coil 103 = some 0 ∧
      ¬ PushSound modbusFraming lampBoot.2 ⟨lamp,[1]⟩ := by
  have served : (push modbusFraming lampBoot.2 ⟨lamp,[1]⟩).2 = .ok () := by decide +kernel
  have before : lampBoot.2.memory.get .holding 103 = some 0 := by decide +kernel
  have after : (push modbusFraming lampBoot.2 ⟨lamp,[1]⟩).1.memory.get .holding 103 = some 1 := by decide +kernel
  refine ⟨lamp_accepted,served,before,after,by decide +kernel,fun sound => ?_⟩
  have kept := (sound.served served).2 .holding 103 (by rintro ⟨table,_⟩; cases table)
  rw [before,after] at kept
  cases kept

end MockPlant.ModbusLink
