import Mathlib

/-!
A mailbox with one slot. Writers put a command under a number into the slot; a
server takes it when its number is not the one acknowledged last, and leaves the
number with the result. A writer that waits for the acknowledgement of its number
has had its own command served as long as nobody else writes that number
meanwhile, unless the slot already acknowledges it.
-/
namespace MockPlant.Mailbox

/-- The command in the slot, and what was acknowledged last. -/
structure Slot (κ ν ω : Type*) where
  code : κ
  number : ν
  ack : ν
  result : ω

/-- What happens at a slot, with the writer of a command. -/
inductive Event (ι κ ν ρ : Type*)
  | wrote (writer : ι) (code : κ) (number : ν)
  | executed (code : κ) (number : ν) (result : ρ)
deriving DecidableEq, Repr

variable {ι κ ν ρ ω : Type*}

def Slot.write (slot : Slot κ ν ω) (code : κ) (number : ν) : Slot κ ν ω :=
  { slot with code := code, number := number }

def Slot.serve (slot : Slot κ ν ω) (result : ω) : Slot κ ν ω :=
  { slot with ack := slot.number, result := result }

/-- The command that a writer wrote last was executed while it was in the slot. -/
def Served (trace : List (Event ι κ ν ρ)) (writer : ι) (code : κ) (number : ν) (result : ρ) : Prop :=
  ∃ earlier later, trace = earlier ++ .wrote writer code number :: .executed code number result :: later

theorem Served.append {trace : List (Event ι κ ν ρ)} {writer : ι} {code : κ} {number : ν} {result : ρ}
    (served : Served trace writer code number result) (more : List (Event ι κ ν ρ)) :
    Served (trace ++ more) writer code number result := by
  obtain ⟨earlier,later,rfl⟩ := served
  exact ⟨earlier,later ++ more,by simp⟩

section
variable (encode : ρ → ω)

/-- The state of a command whose writer waits for its number: still in the slot,
    executed, or overwritten before it was executed. -/
inductive Awaiting (trace : List (Event ι κ ν ρ)) (slot : Slot κ ν ω) (writer : ι) (code : κ) (number : ν) : Prop
  | pending (earlier : List (Event ι κ ν ρ)) (last : trace = earlier ++ [.wrote writer code number])
      (holds : slot.code = code ∧ slot.number = number) (unacked : slot.ack ≠ number)
  | executed (result : ρ) (served : Served trace writer code number result)
      (acked : slot.ack = number → slot.result = encode result) (settled : slot.number = number → slot.ack = number)
  | lost (unacked : slot.ack ≠ number) (overwritten : slot.number ≠ number)

variable {encode} {trace : List (Event ι κ ν ρ)} {slot : Slot κ ν ω} {writer other : ι} {code : κ} {number : ν}

/-- Writing a number that is not acknowledged starts the wait. -/
theorem Awaiting.begin (trace : List (Event ι κ ν ρ)) (writer : ι) (code : κ) (unacked : slot.ack ≠ number) :
    Awaiting encode (trace ++ [.wrote writer code number]) (slot.write code number) writer code number :=
  .pending trace rfl ⟨rfl,rfl⟩ unacked

/-- The writer may write its command again. -/
theorem Awaiting.write_again (awaiting : Awaiting encode trace slot writer code number) :
    Awaiting encode (trace ++ [.wrote writer code number]) (slot.write code number) writer code number := by
  by_cases acked : slot.ack = number
  · cases awaiting with
    | pending _ _ _ unacked => exact absurd acked unacked
    | lost unacked _ => exact absurd acked unacked
    | executed result served same settled => exact .executed result (served.append _) same (fun _ => acked)
  · exact .begin trace writer code acked

/-- Another write leaves the wait alone unless it is of the same unacknowledged number. -/
theorem Awaiting.write_other (awaiting : Awaiting encode trace slot writer code number) {code' : κ} {number' : ν}
    (apart : number' = number → slot.ack = number) :
    Awaiting encode (trace ++ [.wrote other code' number']) (slot.write code' number') writer code number := by
  cases awaiting with
  | pending _ _ _ unacked => exact .lost unacked fun same => unacked (apart same)
  | lost unacked _ => exact .lost unacked fun same => unacked (apart same)
  | executed result served acked settled => exact .executed result (served.append _) acked apart

/-- An execution ends the wait when it is of the waiting command, and leaves any other wait alone. -/
theorem Awaiting.serve (awaiting : Awaiting encode trace slot writer code number) (due : slot.number ≠ slot.ack)
    (result : ρ) :
    Awaiting encode (trace ++ [.executed slot.code slot.number result]) (slot.serve (encode result)) writer code
      number := by
  cases awaiting with
  | pending earlier last holds _ =>
    obtain ⟨rfl,rfl⟩ := holds
    refine .executed result ⟨earlier,[],?_⟩ (fun _ => rfl) (fun _ => rfl)
    rw [last]
    simp
  | lost _ overwritten => exact .lost overwritten overwritten
  | executed earlier served acked settled =>
    have elsewhere : slot.number ≠ number := fun same => due (same.trans (settled same).symm)
    exact .executed earlier (served.append _) (fun same => absurd same elsewhere) (fun same => absurd same elsewhere)

/-- An acknowledgement of the number is of the waiting command's own execution. -/
theorem Awaiting.answer (awaiting : Awaiting encode trace slot writer code number) (acked : slot.ack = number) :
    ∃ result, Served trace writer code number result ∧ slot.result = encode result := by
  cases awaiting with
  | pending _ _ _ unacked => exact absurd acked unacked
  | lost unacked _ => exact absurd acked unacked
  | executed result served same _ => exact ⟨result,served,same acked⟩

end
end MockPlant.Mailbox
