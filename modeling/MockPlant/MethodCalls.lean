import MockPlant.Handshake

/-!
Method calls. A call runs one invoke of the handshake against a link that can do anything:
every read of the ack block and the write of the command block can fail, and a read that
succeeds can find any words. Its result becomes the status of the call. A result that is
none of the four is no result, and the exception it raises is not made a status.
-/
namespace MockPlant.MethodCalls
open MockPlant.Python MockPlant.Contract MockPlant.Plc MockPlant.ScanCommands MockPlant.Handshake

/-! ### The invoke -/

/-- The exceptions of the link that a call expects. -/
inductive LinkFailure
  | modbusException
  | osError
deriving DecidableEq

inductive InvokeError
  | contended (current expected : ℕ)
  | timeout
  | link (failure : LinkFailure)
  | python (e : PyError)
deriving DecidableEq

/-- What the link does during one invoke: the first read of the ack block, the write of the
    command block, and the ack reads that come before the deadline. -/
structure Link where
  first : Except LinkFailure (List ℕ)
  write : Except LinkFailure Unit
  polls : List (Except LinkFailure (List ℕ))

/-- `dict(zip(block.layout, words))[name]` -/
def field (block : RegisterBlock) (words : List ℕ) (name : String) : Except PyError ℕ :=
  lookup ((block.layout.zip words).reverse.lookup name)

/-- The poll loop. A poll that finds the number ends it, whatever the result. -/
def awaitAck (ack : RegisterBlock) (seq : ℕ) : List (Except LinkFailure (List ℕ)) → Except InvokeError AckResult
  | [] => .error .timeout
  | .error failure :: _ => .error (.link failure)
  | .ok words :: rest =>
    match field ack words "ack_seq" with
    | .error e => .error (.python e)
    | .ok ackSeq =>
      if ackSeq = seq then
        match field ack words "ack_result" with
        | .error e => .error (.python e)
        | .ok ackResult =>
          match AckResult.ofNat? ackResult with
          | some r => .ok r
          | none => .error (.python .valueError)
      else awaitAck ack seq rest

/-- What an invoke leaves in `_issued`, the words it put on the wire, and its result. -/
structure Answer where
  issued : Option ℕ
  written : Option (List ℕ)
  result : Except InvokeError AckResult
deriving DecidableEq

section
variable (contract : Contract) (issued : Option ℕ) (code : CmdCode) (arg0 : ℤ) (link : Link)

/-- The invoke from its write on. -/
def send (seq : ℕ) : Answer :=
  match lookup (contract.commandBlock.layout.mapM (commandFields code arg0 seq)) with
  | .error e => ⟨issued,none,.error (.python e)⟩
  | .ok words =>
    match link.write with
    | .error failure => ⟨issued,some words,.error (.link failure)⟩
    | .ok () => ⟨some seq,some words,awaitAck contract.ackBlock seq link.polls⟩

def invoke : Answer :=
  match link.first with
  | .error failure => ⟨issued,none,.error (.link failure)⟩
  | .ok words =>
    match field contract.ackBlock words "ack_seq" with
    | .error e => ⟨issued,none,.error (.python e)⟩
    | .ok current =>
      match issued with
      | none => send contract none code arg0 link (nextSeq current)
      | some expected =>
        if current ≠ expected then ⟨some current,none,.error (.contended current expected)⟩
        else send contract (some expected) code arg0 link (nextSeq current)

/-! ### The status -/

inductive MethodStatus
  | good
  | badOutOfRange
  | badInvalidState
  | badResourceUnavailable
  | badSequenceNumberUnknown
  | badTimeout
  | badCommunicationError
deriving DecidableEq

/-- `ACK_STATUS` -/
def ackStatus : AckResult → MethodStatus
  | .ok => .good
  | .range => .badOutOfRange
  | .state => .badInvalidState
  | .busy => .badResourceUnavailable

/-- `_invoke`: the status of the call, or the exception that escapes it. -/
def methodStatus : Except PyError MethodStatus :=
  match (invoke contract issued code 0 link).result with
  | .ok r => .ok (ackStatus r)
  | .error (.contended _ _) => .ok .badSequenceNumberUnknown
  | .error .timeout => .ok .badTimeout
  | .error (.link _) => .ok .badCommunicationError
  | .error (.python e) => .error e

/-- The status of a result is good only for OK. -/
theorem ackStatus_good {r : AckResult} : ackStatus r = .good ↔ r = .ok := by
  cases r <;> simp [ackStatus]

end

/-! ### Fields of a block -/

theorem field_some {block : RegisterBlock} {words : List ℕ} {name : String} (listed : name ∈ block.layout)
    (length : block.layout.length ≤ words.length) : ∃ v, field block words name = .ok v := by
  have found : ((block.layout.zip words).reverse.lookup name).isSome := by
    obtain ⟨i,bound,key⟩ := List.getElem_of_mem listed
    have at_i : (block.layout.zip words)[i]? = some (name,words[i]) :=
      List.getElem?_zip_eq_some.mpr ⟨by simp [← key],by simp⟩
    have member := List.mem_of_getElem? at_i
    simp only [List.lookup_isSome_iff,List.mem_reverse]
    exact ⟨_,member,beq_self_eq_true name⟩
  obtain ⟨v,looked⟩ := Option.isSome_iff_exists.mp found
  exact ⟨v,lookup_eq_ok.mpr looked⟩

/-- The dictionary keeps the last word of a name, which stands at one of its places. -/
theorem field_place {block : RegisterBlock} {words : List ℕ} {name : String} {v : ℕ}
    (found : field block words name = .ok v) : ∃ i : ℕ, block.layout[i]? = some name ∧ words[i]? = some v := by
  obtain ⟨before,after,split,_⟩ := List.lookup_eq_some_iff.mp (lookup_eq_ok.mp found)
  have member : (name,v) ∈ block.layout.zip words := List.mem_reverse.mp (by rw [split]; simp)
  obtain ⟨i,at_i⟩ := List.getElem?_of_mem member
  exact ⟨i,List.getElem?_zip_eq_some.mp at_i⟩

/-- The blocks that the handshake needs: a command block with fields that a command fills,
    the number among them, and an ack block with a number and a result. -/
structure Blocks (contract : Contract) : Prop where
  command : ∀ name ∈ contract.commandBlock.layout, name ∈ ["cmd_code","arg0_lo","arg0_hi","seq"]
  seq : "seq" ∈ contract.commandBlock.layout
  ackSeq : "ack_seq" ∈ contract.ackBlock.layout
  ackResult : "ack_result" ∈ contract.ackBlock.layout

/-- A command is put on the wire with its number in the block. -/
theorem Blocks.written {contract : Contract} (blocks : Blocks contract) (code : CmdCode) (arg0 : ℤ) (seq : ℕ) :
    ∃ words, lookup (contract.commandBlock.layout.mapM (commandFields code arg0 seq)) = .ok words ∧
      field contract.commandBlock words "seq" = .ok seq := by
  obtain ⟨words,filled,length,same⟩ := mapM_fields (fun name member =>
    commandFields_filled code arg0 seq (blocks.command name member))
  refine ⟨words,lookup_eq_ok.mpr filled,?_⟩
  obtain ⟨v,found⟩ := field_some blocks.seq length.ge
  obtain ⟨i,key,value⟩ := field_place found
  have number := (same i _ key).symm.trans value
  cases number
  exact found

/-- A read finds one word for each register of the ack block. -/
def Sized (ack : RegisterBlock) (read : Except LinkFailure (List ℕ)) : Prop :=
  ∀ words, read = .ok words → words.length = ack.layout.length

/-! ### Polls -/

section
variable (ack : RegisterBlock) (seq : ℕ)

/-- The poll finds another number. -/
def Other (poll : Except LinkFailure (List ℕ)) : Prop :=
  ∃ words ackSeq, poll = .ok words ∧ field ack words "ack_seq" = .ok ackSeq ∧ ackSeq ≠ seq

/-- The words are those of the first poll that does not find another number, and it finds
    the number. -/
def StopsAt (polls : List (Except LinkFailure (List ℕ))) (words : List ℕ) : Prop :=
  ∃ earlier later, polls = earlier ++ .ok words :: later ∧ (∀ poll ∈ earlier, Other ack seq poll) ∧
    field ack words "ack_seq" = .ok seq

variable {ack seq}

theorem StopsAt.cons {poll : Except LinkFailure (List ℕ)} {polls : List (Except LinkFailure (List ℕ))} {words : List ℕ}
    (other : Other ack seq poll) (stops : StopsAt ack seq polls words) : StopsAt ack seq (poll :: polls) words := by
  obtain ⟨earlier,later,rfl,others,number⟩ := stops
  exact ⟨poll :: earlier,later,rfl,List.forall_mem_cons.mpr ⟨other,others⟩,number⟩

/-- The loop passes over other numbers. -/
theorem awaitAck_others {earlier : List (Except LinkFailure (List ℕ))} (others : ∀ poll ∈ earlier, Other ack seq poll)
    (rest : List (Except LinkFailure (List ℕ))) : awaitAck ack seq (earlier ++ rest) = awaitAck ack seq rest := by
  induction earlier with
  | nil => rfl
  | cons poll earlier ih =>
    obtain ⟨⟨words,ackSeq,rfl,number,different⟩,later⟩ := List.forall_mem_cons.mp others
    rw [← ih later]
    simp [awaitAck,number,different]

/-- Where the loop stops at a number, the result decides how. -/
theorem awaitAck_stops {polls : List (Except LinkFailure (List ℕ))} {words : List ℕ} {ackResult : ℕ}
    (stops : StopsAt ack seq polls words) (result : field ack words "ack_result" = .ok ackResult) :
    awaitAck ack seq polls =
      match AckResult.ofNat? ackResult with
      | some r => .ok r
      | none => .error (.python .valueError) := by
  obtain ⟨earlier,later,rfl,others,number⟩ := stops
  rw [awaitAck_others others]
  simp [awaitAck,number,result]

/-- The loop is ended by the deadline, by the link or by its number. -/
theorem awaitAck_cases (seq : ℕ) (inSeq : "ack_seq" ∈ ack.layout) {polls : List (Except LinkFailure (List ℕ))}
    (sized : ∀ poll ∈ polls, Sized ack poll) :
    awaitAck ack seq polls = .error .timeout ∨ (∃ failure, awaitAck ack seq polls = .error (.link failure)) ∨
      ∃ words, words.length = ack.layout.length ∧ StopsAt ack seq polls words := by
  induction polls with
  | nil => exact .inl rfl
  | cons poll rest ih =>
    obtain ⟨here,later⟩ := List.forall_mem_cons.mp sized
    cases poll with
    | error failure => exact .inr (.inl ⟨failure,rfl⟩)
    | ok words =>
      obtain ⟨ackSeq,number⟩ := field_some inSeq (here words rfl).ge
      by_cases same : ackSeq = seq
      · subst same
        exact .inr (.inr ⟨words,here words rfl,[],rest,rfl,by simp,number⟩)
      · have other : Other ack seq (.ok words) := ⟨words,ackSeq,rfl,number,same⟩
        have passed : awaitAck ack seq (.ok words :: rest) = awaitAck ack seq rest :=
          awaitAck_others (List.forall_mem_singleton.mpr other) rest
        rw [passed]
        rcases ih later with late | failed | ⟨words',length,stops⟩
        · exact .inl late
        · exact .inr (.inl failed)
        · exact .inr (.inr ⟨words',length,stops.cons other⟩)

end

/-! ### Calls -/

/-- No exception escapes the call, and it is good only if the invoke stopped at an OK of
    the number that it had put on the wire. -/
def Answered (contract : Contract) (issued : Option ℕ) (code : CmdCode) (link : Link) : Prop :=
  ∃ status, methodStatus contract issued code link = .ok status ∧
    (status = .good → ∃ written seq words, (invoke contract issued code 0 link).written = some written ∧
      field contract.commandBlock written "seq" = .ok seq ∧ StopsAt contract.ackBlock seq link.polls words ∧
      field contract.ackBlock words "ack_result" = .ok AckResult.ok.toNat)

/-- The link lets the block out, and the first poll that does not find another number finds
    the number of the block with a result that the PLC does not know. -/
def Garbled (contract : Contract) (issued : Option ℕ) (link : Link) : Prop :=
  ∃ first current words ackResult, link.first = .ok first ∧
    field contract.ackBlock first "ack_seq" = .ok current ∧ (issued = none ∨ issued = some current) ∧
    link.write = .ok () ∧ StopsAt contract.ackBlock (nextSeq current) link.polls words ∧
    field contract.ackBlock words "ack_result" = .ok ackResult ∧ AckResult.busy.toNat < ackResult

theorem ofNat?_eq_none_iff {n : ℕ} : AckResult.ofNat? n = none ↔ AckResult.busy.toNat < n := by
  rcases n with _ | _ | _ | _ | n <;> simp [AckResult.ofNat?,AckResult.toNat]

section
variable (contract : Contract) (issued : Option ℕ) (code : CmdCode) (arg0 : ℤ) (link : Link)

/-- The first read lets the block out with the next number, or finds another master's. -/
theorem invoke_read {first : List ℕ} {current : ℕ} (read : link.first = .ok first)
    (number : field contract.ackBlock first "ack_seq" = .ok current) :
    ((issued = none ∨ issued = some current) ∧
      afterRead issued current = (issued,.writing (nextSeq current) false) ∧
      invoke contract issued code arg0 link = send contract issued code arg0 link (nextSeq current)) ∨
    ∃ expected, issued = some expected ∧ current ≠ expected ∧
      afterRead issued current = (some current,.done (.contended current expected)) ∧
      invoke contract issued code arg0 link = ⟨some current,none,.error (.contended current expected)⟩ := by
  simp only [invoke,read,number]
  rcases afterRead_cases issued current with ⟨rfl | rfl,step⟩ | ⟨expected,rfl,different,step⟩
  · exact .inl ⟨.inl rfl,step,rfl⟩
  · exact .inl ⟨.inr rfl,step,by simp⟩
  · exact .inr ⟨expected,rfl,different,step,by simp [different]⟩

variable {contract} (blocks : Blocks contract)
include blocks

/-- Once the first read lets the block out the call takes its number and polls for it, if
    the write does not fail. -/
theorem invoke_written {first : List ℕ} {current : ℕ} (read : link.first = .ok first)
    (number : field contract.ackBlock first "ack_seq" = .ok current) (own : issued = none ∨ issued = some current) :
    ∃ written, field contract.commandBlock written "seq" = .ok (nextSeq current) ∧ invoke contract issued code arg0 link =
      match link.write with
      | .error failure => ⟨issued,some written,.error (.link failure)⟩
      | .ok () => ⟨some (nextSeq current),some written,awaitAck contract.ackBlock (nextSeq current) link.polls⟩ := by
  obtain ⟨written,filled,inBlock⟩ := blocks.written code arg0 (nextSeq current)
  refine ⟨written,inBlock,?_⟩
  rcases invoke_read contract issued code arg0 link read number with ⟨_,_,sent⟩ | ⟨expected,rfl,different,_⟩
  · simp only [sent,send,filled]
  · rcases own with none | same
    · cases none
    · exact absurd (Option.some.inj same).symm different

/-- A call that polls for its number is answered when no poll that finds it has a result
    that is none of the four. -/
theorem answered_polls {written : List ℕ} {seq : ℕ} (inBlock : field contract.commandBlock written "seq" = .ok seq)
    (answer : invoke contract issued code 0 link = ⟨some seq,some written,awaitAck contract.ackBlock seq link.polls⟩)
    (pollsSized : ∀ poll ∈ link.polls, Sized contract.ackBlock poll)
    (known : ∀ words ackResult, StopsAt contract.ackBlock seq link.polls words →
      field contract.ackBlock words "ack_result" = .ok ackResult → ¬ AckResult.busy.toNat < ackResult) :
    Answered contract issued code link := by
  rcases awaitAck_cases seq blocks.ackSeq pollsSized with late | ⟨failure,failed⟩ | ⟨words,length,stops⟩
  · exact ⟨.badTimeout,by simp [methodStatus,answer,late],by simp⟩
  · exact ⟨.badCommunicationError,by simp [methodStatus,answer,failed],by simp⟩
  · obtain ⟨ackResult,result⟩ := field_some blocks.ackResult length.ge
    cases found : AckResult.ofNat? ackResult with
    | none => exact absurd (ofNat?_eq_none_iff.mp found) (known words ackResult stops result)
    | some r =>
      have ended : awaitAck contract.ackBlock seq link.polls = .ok r := by
        rw [awaitAck_stops stops result,found]
      refine ⟨ackStatus r,by simp [methodStatus,answer,ended],fun good => ?_⟩
      cases ackStatus_good.mp good
      rw [AckResult.ofNat?_eq_some found] at result
      exact ⟨written,seq,words,by rw [answer],inBlock,stops,result⟩

/-- A call whose link can do anything is answered with a status, good only on an OK,
    unless the ack of its number carries a result that is none of the four. -/
theorem method_call_iff (firstSized : Sized contract.ackBlock link.first)
    (pollsSized : ∀ poll ∈ link.polls, Sized contract.ackBlock poll) :
    Answered contract issued code link ↔ ¬ Garbled contract issued link := by
  constructor
  · rintro ⟨status,returned,_⟩ ⟨first,current,words,ackResult,read,number,own,wrote,stops,result,unknown⟩
    obtain ⟨written,_,polled⟩ := invoke_written issued code 0 link blocks read number own
    have escapes := awaitAck_stops stops result
    rw [ofNat?_eq_none_iff.mpr unknown] at escapes
    simp [methodStatus,polled,wrote,escapes] at returned
  · intro clean
    cases read : link.first with
    | error failure => exact ⟨.badCommunicationError,by simp [methodStatus,invoke,read],by simp⟩
    | ok first =>
      obtain ⟨current,number⟩ := field_some blocks.ackSeq (firstSized first read).ge
      rcases invoke_read contract issued code 0 link read number with ⟨own,_,_⟩ | ⟨expected,_,_,_,refused⟩
      · obtain ⟨written,inBlock,polled⟩ := invoke_written issued code 0 link blocks read number own
        cases wrote : link.write with
        | error failure => exact ⟨.badCommunicationError,by simp [methodStatus,polled,wrote],by simp⟩
        | ok =>
          rw [wrote] at polled
          refine answered_polls issued code link blocks inBlock polled pollsSized fun words ackResult stops result unknown => ?_
          exact clean ⟨first,current,words,ackResult,read,number,own,wrote,stops,result,unknown⟩
      · exact ⟨.badSequenceNumberUnknown,by simp [methodStatus,refused],by simp⟩

end

/-! ### The shipped contract -/

theorem shipped_blocks : Blocks Shipped.tags where
  command := by decide +kernel
  seq := by decide +kernel
  ackSeq := by decide +kernel
  ackResult := by decide +kernel

/-- A link that serves everything, to a PLC that has executed the command by the second poll. -/
def servingLink (ackResult : ℕ) : Link := ⟨.ok [7,2],.ok (),[.ok [7,2],.ok [8,ackResult],.error .osError]⟩

theorem method_call_served :
    Answered Shipped.tags (some 7) .start (servingLink 0) ↔ ¬ Garbled Shipped.tags (some 7) (servingLink 0) :=
  method_call_iff (some 7) .start (servingLink 0) shipped_blocks
    (by rintro words ⟨⟩; rfl)
    (by
      intro poll member words found
      subst found
      simp only [servingLink,List.mem_cons,Except.ok.injEq,List.not_mem_nil,or_false,reduceCtorEq] at member
      rcases member with rfl | rfl <;> rfl)

/-- A result 4 beside the number of the call escapes it. -/
theorem unknown_result_escapes :
    methodStatus Shipped.tags (some 7) .start (servingLink 4) = .error .valueError ∧
      ¬ Answered Shipped.tags (some 7) .start (servingLink 4) := by
  have escapes : methodStatus Shipped.tags (some 7) .start (servingLink 4) = .error .valueError := by decide +kernel
  refine ⟨escapes,?_⟩
  rintro ⟨status,returned,_⟩
  cases escapes.symm.trans returned

end MockPlant.MethodCalls
