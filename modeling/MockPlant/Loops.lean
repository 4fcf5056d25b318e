import Mathlib

/-!
Loops that may go on forever. A turn of a loop raises, goes on with a new state or
leaves; a loop is followed for a number of turns, and an outcome that still goes on
is a loop cut short there. What every turn keeps holds at any cut, and a measure that
every further turn lowers ends the loop.
-/
namespace MockPlant.Loops

variable {σ ε : Type*}

/-- A number of turns of a loop, fewer when one of them leaves it or raises. -/
def loop (turn : σ → Except ε (ForInStep σ)) : ℕ → σ → Except ε (ForInStep σ)
  | 0, s => .ok (.yield s)
  | n + 1, s =>
    match turn s with
    | .ok (.yield t) => loop turn n t
    | ended => ended

/-- What holds of the state a loop is left in, and of the one it goes on with. -/
def Outcome (Left Going : σ → Prop) : ForInStep σ → Prop
  | .done s => Left s
  | .yield s => Going s

theorem Outcome.value {Left Going P : σ → Prop} {outcome : ForInStep σ} (holds : Outcome Left Going outcome)
    (left : ∀ s, Left s → P s) (going : ∀ s, Going s → P s) : P outcome.value := by
  cases outcome with
  | done s => exact left s holds
  | yield s => exact going s holds

variable {turn : σ → Except ε (ForInStep σ)} {s t : σ}

theorem loop_yield {n : ℕ} (turned : turn s = .ok (.yield t)) : loop turn (n + 1) s = loop turn n t := by
  rw [loop,turned]

theorem loop_done {n : ℕ} (turned : turn s = .ok (.done t)) : loop turn (n + 1) s = .ok (.done t) := by
  rw [loop,turned]

theorem loop_succ_ok {n : ℕ} {outcome : ForInStep σ} : loop turn (n + 1) s = .ok outcome ↔
    (∃ t, turn s = .ok (.done t) ∧ outcome = .done t) ∨ ∃ t, turn s = .ok (.yield t) ∧ loop turn n t = .ok outcome := by
  cases turned : turn s with
  | error e => simp [loop,turned]
  | ok step =>
    cases step with
    | done t => simp [loop_done turned,eq_comm]
    | yield t => simp [loop_yield turned]

/-- What holds at the head of the loop and is kept by every turn that goes on holds at
    any cut, and what the turns that leave it come to holds once it has been left. -/
theorem loop_induction {Left Going : σ → Prop} {n : ℕ} {outcome : ForInStep σ} (looped : loop turn n s = .ok outcome)
    (start : Going s) (advance : ∀ s outcome, Going s → turn s = .ok outcome → Outcome Left Going outcome) :
    Outcome Left Going outcome := by
  induction n generalizing s with
  | zero => cases looped; exact start
  | succ n ih =>
    rcases loop_succ_ok.mp looped with ⟨t,turned,rfl⟩ | ⟨t,turned,later⟩
    · exact advance s _ start turned
    · exact ih later (advance s _ start turned)

/-- What every turn keeps, however it ends. -/
theorem loop_invariant {P : σ → Prop} {n : ℕ} {outcome : ForInStep σ} (looped : loop turn n s = .ok outcome)
    (start : P s) (advance : ∀ s outcome, P s → turn s = .ok outcome → P outcome.value) : P outcome.value := by
  have both : Outcome P P outcome := by
    refine loop_induction looped start fun s outcome holds turned => ?_
    have next := advance s outcome holds turned
    cases outcome with
    | done t => exact next
    | yield t => exact next
  exact both.value (fun _ => id) fun _ => id

/-- A loop that has been left makes no further turn. -/
theorem loop_left {n m : ℕ} (left : loop turn n s = .ok (.done t)) (more : n ≤ m) : loop turn m s = .ok (.done t) := by
  induction n generalizing s m with
  | zero => cases left
  | succ n ih =>
    obtain ⟨m,rfl⟩ := Nat.exists_eq_add_of_le' (Nat.succ_le_iff.mp (Nat.lt_of_lt_of_le n.succ_pos more))
    rcases loop_succ_ok.mp left with ⟨u,turned,same⟩ | ⟨u,turned,later⟩
    · cases same
      exact loop_done turned
    · rw [loop_yield turned]
      exact ih later (Nat.le_of_succ_le_succ more)

/-- A loop is left within as many turns as a measure that they lower, unless one of them raises. -/
theorem loop_ends {measure : σ → ℕ} (lowered : ∀ s t, turn s = .ok (.yield t) → measure t < measure s) {n : ℕ}
    {outcome : ForInStep σ} (enough : measure s < n) (looped : loop turn n s = .ok outcome) : ∃ t, outcome = .done t := by
  induction n generalizing s with
  | zero => exact absurd enough (Nat.not_lt_zero _)
  | succ n ih =>
    rcases loop_succ_ok.mp looped with ⟨t,_,rfl⟩ | ⟨t,turned,later⟩
    · exact ⟨t,rfl⟩
    · exact ih (Nat.lt_of_lt_of_le (lowered s t turned) (Nat.le_of_lt_succ enough)) later

end MockPlant.Loops
