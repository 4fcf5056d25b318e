import Mathlib

/-!
A detector of changes. It gets a code or nothing at a time and reports a code unless it got
the same one just before. Where nothing is missing its reports are the codes without their
repetitions.
-/
namespace MockPlant.Changes
variable {α : Type*} [DecidableEq α]

/-- What is reported of a code after what came before. -/
def change (before : Option α) : Option α → Option α
  | some code => if before = some code then none else some code
  | none => none

def changes : Option α → List (Option α) → List α
  | _, [] => []
  | before, code :: rest => (change before code).toList ++ changes code rest

theorem change_eq_some {before code : Option α} {c : α} : change before code = some c ↔ code = some c ∧ before ≠ some c := by
  cases code with
  | none => simp [change]
  | some c' =>
    by_cases same : before = some c'
    · simp only [change,same,if_true]
      constructor
      · rintro ⟨⟩
      · rintro ⟨⟨⟩,different⟩
        exact absurd rfl different
    · simp only [change,same,if_false]
      constructor
      · rintro ⟨⟩
        exact ⟨rfl,same⟩
      · exact fun ⟨equal,_⟩ => equal

theorem changes_append (before : Option α) (first second : List (Option α)) :
    changes before (first ++ second) = changes before first ++ changes (first.getLastD before) second := by
  induction first generalizing before with
  | nil => rfl
  | cons code rest ih => rw [List.cons_append,changes,changes,ih,List.append_assoc,List.getLastD_cons]

/-- A stretch of codes is reported without repetitions, counted from the code before it. -/
theorem changes_stretch (before : Option α) (stretch : List α) :
    before.toList ++ changes before (stretch.map some) = (before.toList ++ stretch).destutter (· ≠ ·) := by
  induction stretch generalizing before with
  | nil => cases before <;> rfl
  | cons code rest ih =>
    have later : code :: changes (some code) (rest.map some) = rest.destutter' (· ≠ ·) code := ih (some code)
    cases before with
    | none => exact later
    | some b =>
      by_cases same : b = code
      · subst same
        simpa [changes,change,List.destutter_cons'] using later
      · simpa [changes,change,List.destutter_cons',same] using later

end MockPlant.Changes
