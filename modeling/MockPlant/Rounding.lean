import Mathlib

/-!
Rounding to the nearest integer with ties to the even one, over any ordered
field with a floor. Rounding keeps every integer and stays between the integer
bounds of its argument.
-/
namespace MockPlant.Rounding

variable {α : Type*} [Field α] [LinearOrder α] [IsStrictOrderedRing α] [FloorRing α]

/-- The integer nearest to `q`; a tie goes to the even neighbour. -/
def roundHalfEven (q : α) : ℤ :=
  if 2 * (q - ⌊q⌋) < 1 then ⌊q⌋
  else if 1 < 2 * (q - ⌊q⌋) then ⌊q⌋ + 1
  else if ⌊q⌋ % 2 = 0 then ⌊q⌋ else ⌊q⌋ + 1

theorem roundHalfEven_intCast (n : ℤ) : roundHalfEven (n : α) = n := by
  simp [roundHalfEven]

theorem roundHalfEven_zero : roundHalfEven (0 : α) = 0 := by
  simpa using roundHalfEven_intCast (α := α) 0

omit [IsStrictOrderedRing α] in
/-- Rounding is down only within the lower half of the unit interval, up only within the upper. -/
theorem roundHalfEven_floor_or_succ (q : α) :
    roundHalfEven q = ⌊q⌋ ∧ 2 * (q - ⌊q⌋) ≤ 1 ∨ roundHalfEven q = ⌊q⌋ + 1 ∧ 1 ≤ 2 * (q - ⌊q⌋) := by
  unfold roundHalfEven
  split_ifs with low high even
  · exact .inl ⟨rfl,low.le⟩
  · exact .inr ⟨rfl,high.le⟩
  · exact .inl ⟨rfl,not_lt.mp high⟩
  · exact .inr ⟨rfl,not_lt.mp low⟩

omit [IsStrictOrderedRing α] in
/-- An integer below a value is below its rounding. -/
theorem le_roundHalfEven {n : ℤ} {q : α} (le : (n : α) ≤ q) : n ≤ roundHalfEven q := by
  have floored : n ≤ ⌊q⌋ := Int.le_floor.mpr le
  rcases roundHalfEven_floor_or_succ q with ⟨rounded,_⟩ | ⟨rounded,_⟩ <;> omega

/-- An integer above a value is above its rounding. -/
theorem roundHalfEven_le {n : ℤ} {q : α} (le : q ≤ (n : α)) : roundHalfEven q ≤ n := by
  rcases roundHalfEven_floor_or_succ q with ⟨rounded,_⟩ | ⟨rounded,up⟩
  · rw [rounded]
    exact Int.cast_le.mp ((Int.floor_le q).trans le)
  · rw [rounded]
    have strict : ((⌊q⌋ : ℤ) : α) < n := by linarith
    have := Int.cast_lt.mp strict
    omega

/-- Rounding moves a value by half a unit at most. -/
theorem abs_roundHalfEven_sub (q : α) : |(roundHalfEven q : α) - q| ≤ 1 / 2 := by
  have low := Int.floor_le q
  have high := Int.lt_floor_add_one q
  rcases roundHalfEven_floor_or_succ q with ⟨rounded,down⟩ | ⟨rounded,up⟩
  · rw [rounded,abs_le]
    constructor <;> linarith
  · rw [rounded,abs_le]
    push_cast
    constructor <;> linarith

/-- No integer is nearer to a value than its rounding. -/
theorem abs_roundHalfEven_sub_le (q : α) (n : ℤ) : |(roundHalfEven q : α) - q| ≤ |(n : α) - q| := by
  have half := abs_roundHalfEven_sub q
  by_cases same : n = roundHalfEven q
  · rw [same]
  · -- Another integer is a whole unit away from the rounding.
    have unit : (1 : α) ≤ |(n : α) - roundHalfEven q| := by
      have apart : (1 : ℤ) ≤ |n - roundHalfEven q| := Int.one_le_abs (sub_ne_zero.mpr same)
      exact_mod_cast apart
    have triangle : |(n : α) - roundHalfEven q| ≤ |(n : α) - q| + |(roundHalfEven q : α) - q| := by
      rw [abs_sub_comm (roundHalfEven q : α) q]
      exact abs_sub_le _ _ _
    linarith

/-! ### Multiples of a step -/

omit [FloorRing α] in
/-- The distance from a value, in steps. -/
theorem abs_mul_sub {step : α} (nonzero : step ≠ 0) (n v : α) : |n * step - v| = |n - v / step| * |step| := by
  rw [← abs_mul,sub_mul,div_mul_cancel₀ v nonzero]

/-- A value is moved to a multiple by half a step at most. -/
theorem abs_roundHalfEven_mul_sub {step : α} (nonzero : step ≠ 0) (v : α) :
    |(roundHalfEven (v / step) : α) * step - v| ≤ |step| / 2 := by
  calc |(roundHalfEven (v / step) : α) * step - v|
      = |(roundHalfEven (v / step) : α) - v / step| * |step| := abs_mul_sub nonzero _ _
    _ ≤ 1 / 2 * |step| := by
      gcongr
      exact abs_roundHalfEven_sub _
    _ = |step| / 2 := by ring

/-- No multiple is nearer to a value. -/
theorem abs_roundHalfEven_mul_sub_le {step : α} (nonzero : step ≠ 0) (v : α) (n : ℤ) :
    |(roundHalfEven (v / step) : α) * step - v| ≤ |(n : α) * step - v| := by
  rw [abs_mul_sub nonzero,abs_mul_sub nonzero]
  exact mul_le_mul_of_nonneg_right (abs_roundHalfEven_sub_le (v / step) n) (abs_nonneg _)

/-! ### Order -/

/-- Rounding keeps the order. -/
theorem roundHalfEven_mono {p q : α} (le : p ≤ q) : roundHalfEven p ≤ roundHalfEven q := by
  rcases (Int.floor_mono le).lt_or_eq with below | same
  · have low : p ≤ ((⌊q⌋ : ℤ) : α) := by
      have next : ((⌊p⌋ : ℤ) : α) + 1 ≤ (⌊q⌋ : ℤ) := by exact_mod_cast below
      linarith [Int.lt_floor_add_one p]
    exact (roundHalfEven_le low).trans (le_roundHalfEven (Int.floor_le q))
  · -- In one unit interval only the fractions count.
    unfold roundHalfEven
    rw [← same]
    split_ifs <;> first | omega | (exfalso; linarith)

end MockPlant.Rounding
