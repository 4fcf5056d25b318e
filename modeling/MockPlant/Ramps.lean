import Mathlib

/-!
Approaching a target by steps of a bounded size. Two approaches make one of the sum of
their sizes, so that any number of them has a closed form.
-/
namespace MockPlant.Ramps
variable {α : Type*} [Field α] [LinearOrder α]

/-- The target if it is within a step, and otherwise a step towards it. -/
def approach (d t v : α) : α := if |t - v| ≤ d then t else v + (if t < v then -d else d)

variable [IsStrictOrderedRing α] {d e t v : α}

theorem approach_of_le (below : v ≤ t) : approach d t v = min t (v + d) := by
  unfold approach
  rw [abs_of_nonneg (sub_nonneg.mpr below),if_neg below.not_gt]
  split_ifs with near
  · exact (min_eq_left (by linarith)).symm
  · exact (min_eq_right (by linarith)).symm

theorem approach_of_ge (forward : 0 ≤ d) (above : t ≤ v) : approach d t v = max t (v - d) := by
  rcases above.eq_or_lt with rfl | above
  · simp [approach,forward]
  · unfold approach
    rw [abs_of_neg (sub_neg.mpr above),if_pos above]
    split_ifs with near
    · exact (max_eq_left (by linarith)).symm
    · rw [max_eq_right (by linarith)]
      ring

/-- An approach stays between where it starts and the target. -/
theorem approach_between (forward : 0 ≤ d) : min v t ≤ approach d t v ∧ approach d t v ≤ max v t := by
  rcases le_total v t with below | above
  · rw [approach_of_le below,min_eq_left below,max_eq_right below]
    exact ⟨le_min below (by linarith),min_le_left _ _⟩
  · rw [approach_of_ge forward above,min_eq_right above,max_eq_left above]
    exact ⟨le_max_left _ _,max_le above (by linarith)⟩

/-- An approach moves by no more than its size. -/
theorem abs_approach_sub (forward : 0 ≤ d) : |approach d t v - v| ≤ d := by
  rcases le_total v t with below | above
  · rw [approach_of_le below,abs_of_nonneg (sub_nonneg.mpr (le_min below (by linarith)))]
    linarith [min_le_right t (v + d)]
  · rw [approach_of_ge forward above,abs_of_nonpos (sub_nonpos.mpr (max_le above (by linarith)))]
    linarith [le_max_right t (v - d)]

theorem approach_eq_iff (forward : 0 ≤ d) : approach d t v = t ↔ |t - v| ≤ d := by
  rcases le_total v t with below | above
  · rw [approach_of_le below,abs_of_nonneg (sub_nonneg.mpr below),min_eq_left_iff,sub_le_iff_le_add']
  · rw [approach_of_ge forward above,abs_of_nonpos (sub_nonpos.mpr above),max_eq_left_iff,neg_sub,sub_le_comm]

theorem approach_zero : approach 0 t v = v := by
  rcases le_total v t with below | above
  · rw [approach_of_le below,add_zero,min_eq_right below]
  · rw [approach_of_ge le_rfl above,sub_zero,max_eq_right above]

/-- Two approaches of one target are one. -/
theorem approach_approach (first : 0 ≤ d) (second : 0 ≤ e) : approach e t (approach d t v) = approach (d + e) t v := by
  rcases le_total v t with below | above
  · rw [approach_of_le below,approach_of_le (min_le_left _ _),approach_of_le below,← min_add_add_right,← min_assoc,
      min_eq_left (le_add_of_nonneg_right second),add_assoc]
  · rw [approach_of_ge first above,approach_of_ge second (le_max_left _ _),approach_of_ge (add_nonneg first second) above,
      ← max_sub_sub_right,← max_assoc,max_eq_left (sub_le_self t second),sub_sub]

/-- The closed form of an approach, by the sign of the distance. -/
theorem approach_sign (forward : 0 ≤ d) :
    approach d t v = if |t - v| ≤ d then t else v + SignType.sign (t - v) * d := by
  unfold approach
  split_ifs with near below
  · rfl
  · rw [sign_neg (sub_neg.mpr below)]
    simp
  · have above : 0 < t - v := by
      rw [abs_of_nonneg (sub_nonneg.mpr (not_lt.mp below))] at near
      linarith
    rw [sign_pos above]
    simp

/-- The target is reached at the least number of steps that make up the distance. -/
theorem approach_reached_iff [FloorSemiring α] (positive : 0 < d) (n : ℕ) :
    approach (n * d) t v = t ↔ ⌈|t - v| / d⌉₊ ≤ n := by
  rw [approach_eq_iff (by positivity),Nat.ceil_le,div_le_iff₀ positive]

end MockPlant.Ramps
