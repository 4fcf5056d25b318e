import MockPlant.Python

/-!
IEEE binary32, as 32-bit patterns. `pack` rounds an exact value to the nearest
pattern, ties to even, and fails when a finite value rounds beyond the largest
one; `unpack` reads a pattern exactly. Packing returns every pattern that is not
a NaN.
-/
namespace MockPlant.Binary32
open MockPlant.Rounding MockPlant.Python

/-- `⌊log₂ q⌋` for `0 < q`, from the bit lengths of its numerator and denominator. -/
def floorLog2 (q : ℚ) : ℤ :=
  let e : ℤ := (q.num.natAbs.log2 : ℤ) - (q.den.log2 : ℤ)
  if q < 2 ^ e then e - 1 else e

/-- The pattern of a positive value without its sign: the exponent field over the
    fraction field, a carry out of the fraction moving into the exponent. -/
def magnitudeBits (q : ℚ) : ℕ :=
  let e := max (floorLog2 q) (-126)
  ((e + 126) * 2 ^ 23 + roundHalfEven (q / 2 ^ (e - 23))).toNat

def pack : PyFloat → Option ℕ
  | .nan => some 0x7FC00000
  | .posInf => some 0x7F800000
  | .negInf => some 0xFF800000
  | .negZero => some 0x80000000
  | .fin q =>
    if q = 0 then some 0
    else if 0x7F800000 ≤ magnitudeBits |q| then none
    else some (if q < 0 then 0x80000000 + magnitudeBits |q| else magnitudeBits |q|)

def signField (bits : ℕ) : Bool := decide (bits / 2 ^ 31 % 2 = 1)
def exponentField (bits : ℕ) : ℕ := bits / 2 ^ 23 % 256
def fractionField (bits : ℕ) : ℕ := bits % 2 ^ 23

/-- The size of a finite pattern's value. -/
def magnitude (exponent fraction : ℕ) : ℚ :=
  if exponent = 0 then fraction * 2 ^ (-149 : ℤ) else (2 ^ 23 + fraction) * 2 ^ ((exponent : ℤ) - 150)

def unpack (bits : ℕ) : PyFloat :=
  if exponentField bits = 255 then
    if fractionField bits = 0 then PyFloat.inf (signField bits) else .nan
  else if magnitude (exponentField bits) (fractionField bits) = 0 then PyFloat.zero (signField bits)
  else if signField bits then .fin (-magnitude (exponentField bits) (fractionField bits))
  else .fin (magnitude (exponentField bits) (fractionField bits))

/-- A 32-bit pattern of a finite value. -/
def FinitePattern (bits : ℕ) : Prop := bits < 2 ^ 32 ∧ exponentField bits ≠ 255

theorem floorLog2_bounds {q : ℚ} (positive : 0 < q) :
    (2 : ℚ) ^ floorLog2 q ≤ q ∧ q < 2 ^ (floorLog2 q + 1) := by
  have denPositive : (0 : ℚ) < q.den := by exact_mod_cast q.den_pos
  have numPositive : 0 < q.num := Rat.num_pos.mpr positive
  have numNonzero : q.num.natAbs ≠ 0 := by omega
  have ratio : q * q.den = q.num.natAbs := by
    rw [Rat.mul_den_eq_num,← Int.cast_natCast,Int.natAbs_of_nonneg numPositive.le]
  have numLow : (2 : ℚ) ^ (q.num.natAbs.log2 : ℤ) ≤ q.num.natAbs := by
    rw [zpow_natCast]; exact_mod_cast Nat.log2_self_le numNonzero
  have numHigh : (q.num.natAbs : ℚ) < 2 ^ ((q.num.natAbs.log2 : ℤ) + 1) := by
    have bound := Nat.lt_log2_self (n := q.num.natAbs)
    exact_mod_cast bound
  have denLow : (2 : ℚ) ^ (q.den.log2 : ℤ) ≤ q.den := by
    rw [zpow_natCast]; exact_mod_cast Nat.log2_self_le q.den_nz
  have denHigh : (q.den : ℚ) < 2 ^ ((q.den.log2 : ℤ) + 1) := by
    have bound := Nat.lt_log2_self (n := q.den)
    exact_mod_cast bound
  generalize numLog : (q.num.natAbs.log2 : ℤ) = a at *
  generalize denLog : (q.den.log2 : ℤ) = b at *
  -- The exponent of the quotient is the difference of the lengths or one less.
  have lower : (2 : ℚ) ^ (a - b - 1) < q := by
    refine lt_of_mul_lt_mul_right ?_ denPositive.le
    calc (2 : ℚ) ^ (a - b - 1) * q.den < 2 ^ (a - b - 1) * 2 ^ (b + 1) := by gcongr
      _ = 2 ^ a := by rw [← zpow_add₀ two_ne_zero]; congr 1; ring
      _ ≤ q * q.den := ratio ▸ numLow
  have upper : q < 2 ^ (a - b + 1) := by
    refine lt_of_mul_lt_mul_right ?_ denPositive.le
    calc q * q.den < 2 ^ (a + 1) := ratio ▸ numHigh
      _ = 2 ^ (a - b + 1) * 2 ^ b := by rw [← zpow_add₀ two_ne_zero]; congr 1; ring
      _ ≤ 2 ^ (a - b + 1) * q.den := by gcongr
  simp only [floorLog2,numLog,denLog]
  split_ifs with small
  · exact ⟨lower.le,by simpa using small⟩
  · exact ⟨not_lt.mp small,upper⟩

theorem floorLog2_eq {q : ℚ} {e : ℤ} (low : 2 ^ e ≤ q) (high : q < 2 ^ (e + 1)) : floorLog2 q = e := by
  obtain ⟨below,above⟩ := floorLog2_bounds (lt_of_lt_of_le (by positivity) low)
  have one := (zpow_lt_zpow_iff_right₀ (one_lt_two (α := ℚ))).mp (lt_of_le_of_lt below high)
  have two := (zpow_lt_zpow_iff_right₀ (one_lt_two (α := ℚ))).mp (lt_of_le_of_lt low above)
  omega

theorem exponentField_lt (bits : ℕ) : exponentField bits < 256 := Nat.mod_lt _ (by decide)
theorem fractionField_lt (bits : ℕ) : fractionField bits < 2 ^ 23 := Nat.mod_lt _ (by decide)

/-- A pattern is its sign, exponent and fraction fields, from the top. -/
theorem fields_eq {bits : ℕ} (word : bits < 2 ^ 32) :
    bits = (if signField bits then 0x80000000 else 0) + exponentField bits * 2 ^ 23 + fractionField bits := by
  unfold signField exponentField fractionField
  split_ifs with negative <;> simp only [decide_eq_true_eq] at negative <;> omega

theorem magnitude_nonneg (exponent fraction : ℕ) : 0 ≤ magnitude exponent fraction := by
  unfold magnitude
  split_ifs <;> positivity

theorem magnitude_eq_zero (exponent fraction : ℕ) :
    magnitude exponent fraction = 0 ↔ exponent = 0 ∧ fraction = 0 := by
  unfold magnitude
  split_ifs with subnormal
  · simp [subnormal]
  · have : (2 ^ 23 + fraction : ℚ) * 2 ^ ((exponent : ℤ) - 150) ≠ 0 := by positivity
    simp [subnormal,this]

/-- The pattern of a finite size is its two fields. -/
theorem magnitudeBits_magnitude {exponent fraction : ℕ} (fits : fraction < 2 ^ 23)
    (nonzero : ¬ (exponent = 0 ∧ fraction = 0)) :
    magnitudeBits (magnitude exponent fraction) = exponent * 2 ^ 23 + fraction := by
  have fitsRat : (fraction : ℚ) < 2 ^ 23 := by exact_mod_cast fits
  by_cases subnormal : exponent = 0
  · -- A subnormal size keeps the least exponent and has only the fraction.
    have value : magnitude exponent fraction = fraction * 2 ^ (-149 : ℤ) := by simp [magnitude,subnormal]
    have small : magnitude exponent fraction < 2 ^ (-126 : ℤ) := by
      have split : (2 : ℚ) ^ (-126 : ℤ) = 2 ^ 23 * 2 ^ (-149 : ℤ) := by norm_num
      rw [value,split]
      exact mul_lt_mul_of_pos_right fitsRat (by positivity)
    have low : floorLog2 (magnitude exponent fraction) ≤ -126 := by
      by_contra large
      have positive : 0 < magnitude exponent fraction :=
        lt_of_le_of_ne (magnitude_nonneg _ _) (fun zero => nonzero ((magnitude_eq_zero _ _).mp zero.symm))
      obtain ⟨below,_⟩ := floorLog2_bounds positive
      have grown := zpow_le_zpow_right₀ (one_le_two (α := ℚ)) (not_le.mp large).le
      linarith
    have scaled : magnitude exponent fraction / 2 ^ ((-126 : ℤ) - 23) = ((fraction : ℤ) : ℚ) := by
      rw [value]
      norm_num
    simp only [magnitudeBits,max_eq_right low,scaled,roundHalfEven_intCast]
    omega
  · have value : magnitude exponent fraction = (2 ^ 23 + fraction) * 2 ^ ((exponent : ℤ) - 150) := by
      simp [magnitude,subnormal]
    have exact : floorLog2 (magnitude exponent fraction) = (exponent : ℤ) - 127 := by
      have lowSplit : (2 : ℚ) ^ ((exponent : ℤ) - 127) = 2 ^ 23 * 2 ^ ((exponent : ℤ) - 150) := by
        rw [show (exponent : ℤ) - 127 = 23 + (exponent - 150) by ring,zpow_add₀ two_ne_zero]
        norm_num
      have highSplit : (2 : ℚ) ^ ((exponent : ℤ) - 127 + 1) = 2 ^ 24 * 2 ^ ((exponent : ℤ) - 150) := by
        rw [show (exponent : ℤ) - 127 + 1 = 24 + (exponent - 150) by ring,zpow_add₀ two_ne_zero]
        norm_num
      apply floorLog2_eq
      · rw [value,lowSplit]
        exact mul_le_mul_of_nonneg_right (by linarith [Nat.cast_nonneg (α := ℚ) fraction]) (by positivity)
      · rw [value,highSplit]
        exact mul_lt_mul_of_pos_right (by linarith) (by positivity)
    have scaled : magnitude exponent fraction / 2 ^ ((exponent : ℤ) - 127 - 23) = (((2 ^ 23 + fraction : ℕ) : ℤ) : ℚ) := by
      rw [value,show (exponent : ℤ) - 127 - 23 = exponent - 150 by ring,mul_div_cancel_right₀ _ (by positivity)]
      push_cast
      rfl
    have normal : max ((exponent : ℤ) - 127) (-126) = exponent - 127 := max_eq_left (by omega)
    simp only [magnitudeBits,exact,normal,scaled,roundHalfEven_intCast]
    omega

/-- The greatest finite size. -/
def largest : ℚ := (2 ^ 24 - 1) * 2 ^ (104 : ℤ)

/-- The least size that is rounded beyond the greatest finite one, a tie. -/
def overflow : ℚ := (2 ^ 25 - 1) * 2 ^ (103 : ℤ)

/-- The rounded fraction of a size has all its 24 bits from the exponent's power of two on. -/
theorem le_significand {q : ℚ} {e : ℤ} (below : 2 ^ e ≤ q) : 2 ^ 23 ≤ roundHalfEven (q / 2 ^ (e - 23)) := by
  refine le_roundHalfEven ?_
  rw [le_div_iff₀ (by positivity)]
  calc ((2 ^ 23 : ℤ) : ℚ) * 2 ^ (e - 23) = 2 ^ e := by
        rw [show e = 23 + (e - 23) by ring,zpow_add₀ two_ne_zero]
        norm_num
    _ ≤ q := below

/-- Up to the next power of two it carries at most once. -/
theorem significand_le {q : ℚ} {e : ℤ} (above : q ≤ 2 ^ (e + 1)) : roundHalfEven (q / 2 ^ (e - 23)) ≤ 2 ^ 24 := by
  refine roundHalfEven_le ?_
  rw [div_le_iff₀ (by positivity)]
  calc q ≤ 2 ^ (e + 1) := above
    _ = ((2 ^ 24 : ℤ) : ℚ) * 2 ^ (e - 23) := by
      rw [show e + 1 = 24 + (e - 23) by ring,zpow_add₀ two_ne_zero]
      norm_num

/-- The exponent field stays below the special patterns up to the overflow and no farther. -/
theorem magnitudeBits_lt_iff {q : ℚ} (positive : 0 < q) : magnitudeBits q < 0x7F800000 ↔ q < overflow := by
  obtain ⟨below,above⟩ := floorLog2_bounds positive
  generalize lift : max (floorLog2 q) (-126) = e at *
  have upTo : q < 2 ^ (e + 1) := above.trans_le (zpow_le_zpow_right₀ (one_le_two (α := ℚ)) (by omega))
  constructor
  · intro bits
    by_contra large
    have least : overflow ≤ q := not_lt.mp large
    have exponent : 127 ≤ floorLog2 q := by
      have size : (2 : ℚ) ^ (127 : ℤ) ≤ overflow := by norm_num [overflow]
      have := (zpow_lt_zpow_iff_right₀ (one_lt_two (α := ℚ))).mp ((size.trans least).trans_lt above)
      omega
    have same : e = floorLog2 q := by omega
    by_cases top : e = 127
    · -- With the greatest exponent the fraction is rounded up to a carry.
      have scaled : (2 ^ 24 - 1 / 2 : ℚ) ≤ q / 2 ^ (e - 23) := by
        rw [top,le_div_iff₀ (by positivity)]
        exact le_trans (le_of_eq (by norm_num [overflow])) least
      have carry : roundHalfEven (2 ^ 24 - 1 / 2 : ℚ) = 2 ^ 24 := by decide +kernel
      have := roundHalfEven_mono scaled
      simp only [magnitudeBits,lift] at bits
      omega
    · have := le_significand (same ▸ below)
      simp only [magnitudeBits,lift] at bits
      omega
  · intro small
    have exponent : floorLog2 q ≤ 127 := by
      have size : overflow < 2 ^ (128 : ℤ) := by norm_num [overflow]
      have := (zpow_lt_zpow_iff_right₀ (one_lt_two (α := ℚ))).mp (below.trans_lt (small.trans size))
      omega
    by_cases top : e = 127
    · -- Only the greatest exponent needs the bound on the value itself.
      have scaled : q / 2 ^ (e - 23) < 2 ^ 24 - 1 / 2 := by
        rw [top,div_lt_iff₀ (by positivity)]
        exact lt_of_lt_of_le small (le_of_eq (by norm_num [overflow]))
      have near := (abs_le.mp (abs_roundHalfEven_sub (q / 2 ^ (e - 23)))).2
      have last : (roundHalfEven (q / 2 ^ (e - 23)) : ℚ) < ((2 ^ 24 : ℤ) : ℚ) := by
        push_cast
        linarith
      have := Int.cast_lt.mp last
      simp only [magnitudeBits,lift]
      omega
    · have := significand_le upTo.le
      simp only [magnitudeBits,lift]
      omega

/-- A float is packed unless it is finite and at or beyond the overflow. -/
theorem pack_isSome_iff {x : PyFloat} : (∃ bits, pack x = some bits) ↔ ∀ q, x = .fin q → |q| < overflow := by
  cases x with
  | nan | posInf | negInf | negZero => exact iff_of_true ⟨_,rfl⟩ fun q finite => by cases finite
  | fin q =>
    simp only [PyFloat.fin.injEq,forall_eq']
    by_cases zero : q = 0
    · rw [zero,abs_zero]
      exact iff_of_true ⟨0,by simp [pack]⟩ (by norm_num [overflow])
    · rw [← magnitudeBits_lt_iff (abs_pos.mpr zero)]
      constructor
      · rintro ⟨bits,packed⟩
        by_contra large
        simp only [pack,zero,if_false,not_lt.mp large,if_true] at packed
        cases packed
      · intro small
        refine ⟨if q < 0 then 0x80000000 + magnitudeBits |q| else magnitudeBits |q|,?_⟩
        simp only [pack,zero,if_false,not_le.mpr small]

/-- Up to the greatest finite size a float is packed. -/
theorem pack_isSome {x : PyFloat} (fits : ∀ q, x = .fin q → |q| ≤ largest) : ∃ bits, pack x = some bits :=
  pack_isSome_iff.mpr fun q finite => (fits q finite).trans_lt (by norm_num [largest,overflow])

/-- Packing returns the pattern of every finite value. -/
theorem pack_unpack {bits : ℕ} (finite : FinitePattern bits) : pack (unpack bits) = some bits := by
  obtain ⟨word,exponent⟩ := finite
  have fields := fields_eq word
  have fraction := fractionField_lt bits
  have range := exponentField_lt bits
  unfold unpack
  rw [if_neg exponent]
  split_ifs with zero negative
  · obtain ⟨zeroExponent,zeroFraction⟩ := (magnitude_eq_zero _ _).mp zero
    rw [zeroExponent,zeroFraction] at fields
    cases sign : signField bits <;> simp [sign,PyFloat.zero,pack] at fields ⊢ <;> exact fields.symm
  · have nonzero := fun fields => zero ((magnitude_eq_zero _ _).mpr fields)
    have positive := lt_of_le_of_ne (magnitude_nonneg _ _) (Ne.symm zero)
    simp only [pack,neg_eq_zero,zero,if_false,abs_neg,abs_of_pos positive,Left.neg_neg_iff,positive,if_true,
      magnitudeBits_magnitude fraction nonzero]
    simp only [negative,if_true] at fields
    rw [if_neg (by omega)]
    exact congrArg some (by omega)
  · have nonzero := fun fields => zero ((magnitude_eq_zero _ _).mpr fields)
    have positive := lt_of_le_of_ne (magnitude_nonneg _ _) (Ne.symm zero)
    simp only [pack,zero,if_false,abs_of_pos positive,positive.le.not_gt,magnitudeBits_magnitude fraction nonzero]
    simp only [negative] at fields
    rw [if_neg (by omega)]
    exact congrArg some (by simpa using fields.symm)

end MockPlant.Binary32
