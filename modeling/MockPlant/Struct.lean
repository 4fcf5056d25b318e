import MockPlant.Binary32

/-!
Python's `struct` for one big-endian value: integers of any size in two's
complement and binary32 floats. Packing and unpacking are inverse to each other
on the values of the format.
-/
namespace MockPlant.Struct
open MockPlant.Python MockPlant.Binary32

/-- A format of one value: `int 2 true` is `>h`, `int 4 false` is `>I`, `float` is `>f`. -/
inductive Format
  | int (size : ℕ) (signed : Bool)
  | float
deriving DecidableEq

def Format.size : Format → ℕ
  | .int size _ => size
  | .float => 4

/-- The `size` low bytes of `n`, most significant first. -/
def toBytes : ℕ → ℕ → List ℕ
  | 0, _ => []
  | size + 1, n => toBytes size (n / 256) ++ [n % 256]

/-- `int.from_bytes(bytes, "big")`. -/
def fromBytes (bytes : List ℕ) : ℕ := bytes.foldl (fun n byte => 256 * n + byte) 0

/-- The integers a format holds. -/
def InRange (size : ℕ) (signed : Bool) (n : ℤ) : Prop :=
  if signed then -(256 ^ size / 2 : ℤ) ≤ n ∧ n < 256 ^ size / 2 else 0 ≤ n ∧ n < 256 ^ size

instance (size : ℕ) (signed : Bool) (n : ℤ) : Decidable (InRange size signed n) :=
  inferInstanceAs (Decidable (if signed then -(256 ^ size / 2 : ℤ) ≤ n ∧ n < 256 ^ size / 2
    else 0 ≤ n ∧ n < 256 ^ size))

/-- The integer whose two's complement is `residue`, below `256 ^ size`. -/
def fromResidue (size : ℕ) (signed : Bool) (residue : ℕ) : ℤ :=
  if signed ∧ 256 ^ size ≤ 2 * residue then (residue : ℤ) - 256 ^ size else residue

/-- `struct.pack(format, value)`, with the `float()` or `int()` around the value. -/
def pack : Format → Value → Except PyError (List ℕ)
  | .float, value =>
    match Binary32.pack value.toFloat with
    | some bits => .ok (toBytes 4 bits)
    | none => .error .overflowError
  | .int size signed, value => do
    let n ← value.toInt
    if InRange size signed n then .ok (toBytes size (n % 256 ^ size).toNat) else .error .structError

/-- `struct.unpack(format, bytes)[0]`. -/
def unpack (format : Format) (bytes : List ℕ) : Except PyError Value :=
  if bytes.length ≠ format.size then .error .structError
  else match format with
    | .float => .ok (.float (Binary32.unpack (fromBytes bytes)))
    | .int size signed => .ok (.int (fromResidue size signed (fromBytes bytes)))

/-! ### Bytes -/

/-- Bytes of a word are below 256. -/
def IsBytes (bytes : List ℕ) : Prop := ∀ byte ∈ bytes, byte < 256

@[simp] theorem toBytes_length (size n : ℕ) : (toBytes size n).length = size := by
  induction size generalizing n with
  | zero => rfl
  | succ size ih => simp [toBytes,ih]

theorem toBytes_isBytes (size n : ℕ) : IsBytes (toBytes size n) := by
  induction size generalizing n with
  | zero => intro byte member; simp [toBytes] at member
  | succ size ih =>
    intro byte member
    simp only [toBytes,List.mem_append,List.mem_singleton] at member
    rcases member with early | rfl
    · exact ih _ byte early
    · exact Nat.mod_lt _ (by decide)

theorem fromBytes_concat (bytes : List ℕ) (byte : ℕ) :
    fromBytes (bytes ++ [byte]) = 256 * fromBytes bytes + byte := by
  simp [fromBytes]

theorem fromBytes_toBytes (size n : ℕ) : fromBytes (toBytes size n) = n % 256 ^ size := by
  induction size generalizing n with
  | zero => simp [toBytes,fromBytes,Nat.mod_one]
  | succ size ih =>
    rw [toBytes,fromBytes_concat,ih,pow_succ,mul_comm (256 ^ size) 256,Nat.mod_mul]
    omega

theorem fromBytes_lt {bytes : List ℕ} (isBytes : IsBytes bytes) : fromBytes bytes < 256 ^ bytes.length := by
  induction bytes using List.reverseRecOn with
  | nil => simp [fromBytes]
  | append_singleton bytes byte ih =>
    have low := ih (fun b member => isBytes b (by simp [member]))
    have high := isBytes byte (by simp)
    rw [fromBytes_concat,List.length_append,List.length_singleton,pow_succ]
    omega

theorem toBytes_fromBytes {bytes : List ℕ} (isBytes : IsBytes bytes) :
    toBytes bytes.length (fromBytes bytes) = bytes := by
  induction bytes using List.reverseRecOn with
  | nil => rfl
  | append_singleton bytes byte ih =>
    have rest := ih (fun b member => isBytes b (by simp [member]))
    have small := isBytes byte (by simp)
    rw [fromBytes_concat,List.length_append,List.length_singleton,toBytes]
    rw [show (256 * fromBytes bytes + byte) / 256 = fromBytes bytes by omega,rest]
    rw [show (256 * fromBytes bytes + byte) % 256 = byte by omega]

/-- Packing puts out as many bytes as the format has. -/
theorem pack_isBytes {format : Format} {value : Value} {bytes : List ℕ} (packed : pack format value = .ok bytes) :
    bytes.length = format.size ∧ IsBytes bytes := by
  cases format with
  | float =>
    simp only [pack] at packed
    cases found : Binary32.pack value.toFloat with
    | none => simp [found] at packed
    | some bits =>
      simp only [found,Except.ok.injEq] at packed
      subst packed
      exact ⟨toBytes_length _ _,toBytes_isBytes _ _⟩
  | int size signed =>
    obtain ⟨n,_,done⟩ := bind_eq_ok.mp packed
    split_ifs at done
    cases done
    exact ⟨toBytes_length _ _,toBytes_isBytes _ _⟩

/-! ### Round trips -/

private theorem two_dvd_pow {size : ℕ} (nonempty : size ≠ 0) : (2 : ℤ) ∣ 256 ^ size :=
  (show (2 : ℤ) ∣ 256 by decide).trans (dvd_pow_self 256 nonempty)

private theorem fromResidue_residue {size : ℕ} (nonempty : size ≠ 0) {signed : Bool} {n : ℤ}
    (range : InRange size signed n) : fromResidue size signed (n % 256 ^ size).toNat = n := by
  have even := two_dvd_pow nonempty
  have power : ((256 ^ size : ℕ) : ℤ) = 256 ^ size := by push_cast; rfl
  unfold InRange at range
  unfold fromResidue
  generalize (256 : ℤ) ^ size = bound at *
  generalize 256 ^ size = boundNat at *
  have wrapped (m : ℤ) (low : 0 ≤ m) (high : m < bound) : ((m % bound).toNat : ℤ) = m := by
    rw [Int.emod_eq_of_lt low high]
    omega
  cases signed with
  | false =>
    simp only [Bool.false_eq_true,if_false,false_and] at range ⊢
    exact wrapped n range.1 range.2
  | true =>
    simp only [if_true,true_and] at range ⊢
    by_cases negative : n < 0
    · have shifted : ((n % bound).toNat : ℤ) = n + bound := by
        rw [← Int.add_emod_right]
        exact wrapped (n + bound) (by omega) (by omega)
      rw [if_pos (by omega)]
      omega
    · have kept := wrapped n (by omega) (by omega)
      rw [if_neg (by omega)]
      exact kept

private theorem residue_fromResidue (size : ℕ) (signed : Bool) {r : ℕ} (fits : r < 256 ^ size) :
    (fromResidue size signed r % 256 ^ size).toNat = r := by
  have fitsInt : (r : ℤ) < 256 ^ size := by exact_mod_cast fits
  have kept : ((r : ℤ) % 256 ^ size).toNat = r := by
    rw [Int.emod_eq_of_lt (by omega) fitsInt]
    omega
  unfold fromResidue
  split_ifs
  · rw [Int.sub_emod_right,kept]
  · exact kept

private theorem fromResidue_inRange {size : ℕ} (nonempty : size ≠ 0) (signed : Bool) {r : ℕ} (fits : r < 256 ^ size) :
    InRange size signed (fromResidue size signed r) := by
  have even := two_dvd_pow nonempty
  have power : ((256 ^ size : ℕ) : ℤ) = 256 ^ size := by push_cast; rfl
  unfold InRange fromResidue
  generalize (256 : ℤ) ^ size = bound at *
  generalize 256 ^ size = boundNat at *
  cases signed with
  | false => simp only [Bool.false_eq_true,if_false,false_and]; omega
  | true =>
    simp only [if_true,true_and]
    split_ifs <;> omega

/-- Every integer of a format is packed, and unpacking gives it back. -/
theorem unpack_pack_int {size : ℕ} (nonempty : size ≠ 0) {signed : Bool} {n : ℤ} (range : InRange size signed n) :
    ∃ bytes, pack (.int size signed) (.int n) = .ok bytes ∧ bytes.length = size ∧ IsBytes bytes ∧
      unpack (.int size signed) bytes = .ok (.int n) := by
  refine ⟨toBytes size (n % 256 ^ size).toNat,?_,toBytes_length _ _,toBytes_isBytes _ _,?_⟩
  · simp [pack,Value.toInt,range,bind,Except.bind]
  · have small : (n % 256 ^ size).toNat < 256 ^ size := by
      have := Int.emod_lt_of_pos n (show (0 : ℤ) < 256 ^ size by positivity)
      zify
      omega
    simp only [unpack,Format.size,toBytes_length,ne_eq,not_true,if_false,fromBytes_toBytes,Nat.mod_eq_of_lt small,
      fromResidue_residue nonempty range]

/-- Every string of bytes of the format's size is unpacked to an integer of the
    format, and packing gives it back. -/
theorem pack_unpack_int {size : ℕ} (nonempty : size ≠ 0) (signed : Bool) {bytes : List ℕ}
    (length : bytes.length = size) (isBytes : IsBytes bytes) :
    ∃ n, unpack (.int size signed) bytes = .ok (.int n) ∧ InRange size signed n ∧
      pack (.int size signed) (.int n) = .ok bytes := by
  have fits : fromBytes bytes < 256 ^ size := length ▸ fromBytes_lt isBytes
  have range := fromResidue_inRange nonempty signed fits
  refine ⟨fromResidue size signed (fromBytes bytes),?_,range,?_⟩
  · simp only [unpack,Format.size,length,ne_eq,not_true,if_false]
  · simp only [pack,Value.toInt,bind,Except.bind,range,if_true,residue_fromResidue size signed fits]
    rw [← length,toBytes_fromBytes isBytes]

/-- Bytes of a finite float are unpacked to a float that packing gives back. -/
theorem pack_unpack_float {bytes : List ℕ} (length : bytes.length = 4) (isBytes : IsBytes bytes)
    (finite : FinitePattern (fromBytes bytes)) :
    pack .float (.float (Binary32.unpack (fromBytes bytes))) = .ok bytes := by
  simp only [pack,Value.toFloat,Binary32.pack_unpack finite]
  rw [← length,toBytes_fromBytes isBytes]

end MockPlant.Struct
