import MockPlant.Rounding

/-!
Python's exceptions, numbers and the operations on them. A `float` has IEEE's
special values; its finite values are exact rationals, with only a negative zero
keeping its sign apart. The sign of a NaN is not kept.
-/
namespace MockPlant.Python
open MockPlant.Rounding

/-- What Python code can raise; `user` is an exception class of the program itself. -/
inductive PyError
  | valueError
  | overflowError
  | zeroDivisionError
  | structError
  | keyError
  | indexError
  | attributeError
  | typeError
  | user (name message : String)
deriving DecidableEq, Repr

/-- A sequence of two computations succeeds exactly when both do. -/
theorem bind_eq_ok {α β : Type} {x : Except PyError α} {f : α → Except PyError β} {r : β} :
    (x >>= f) = .ok r ↔ ∃ a, x = .ok a ∧ f a = .ok r := by
  cases x <;> simp [bind,Except.bind]

theorem forM_eq_ok {α : Type} {check : α → Except PyError Unit} {items : List α} :
    forM items check = .ok () ↔ ∀ item ∈ items, check item = .ok () := by
  induction items with
  | nil => simp [pure,Except.pure]
  | cons item rest ih =>
    rw [List.forM_cons,bind_eq_ok,List.forall_mem_cons,← ih]
    constructor
    · rintro ⟨⟨⟩,here,later⟩
      exact ⟨here,later⟩
    · rintro ⟨here,later⟩
      exact ⟨(),here,later⟩

theorem toOption_eq_ok {α : Type} {x : Except PyError α} {a : α} : x.toOption = some a ↔ x = .ok a := by
  cases x <;> simp [Except.toOption]

/-- The exception a computation ends in. -/
def raised {α : Type} : Except PyError α → Option PyError
  | .error e => some e
  | .ok _ => none

/-- A Python `float`. -/
inductive PyFloat
  | fin (q : ℚ)
  | negZero
  | posInf
  | negInf
  | nan
deriving DecidableEq

namespace PyFloat

/-- The rational a finite value stands for. -/
def rat? : PyFloat → Option ℚ
  | fin q => some q
  | negZero => some 0
  | _ => none

/-- The sign bit. -/
def signBit : PyFloat → Bool
  | fin q => decide (q < 0)
  | negZero | negInf => true
  | posInf | nan => false

/-- A zero with the given sign bit. -/
def zero (negative : Bool) : PyFloat := if negative then negZero else fin 0

/-- An infinity with the given sign bit. -/
def inf (negative : Bool) : PyFloat := if negative then negInf else posInf

def neg : PyFloat → PyFloat
  | fin q => if q = 0 then negZero else fin (-q)
  | negZero => fin 0
  | posInf => negInf
  | negInf => posInf
  | nan => nan

def abs : PyFloat → PyFloat
  | fin q => fin |q|
  | negZero => fin 0
  | posInf | negInf => posInf
  | nan => nan

def add : PyFloat → PyFloat → PyFloat
  | nan, _ | _, nan => nan
  | posInf, negInf | negInf, posInf => nan
  | posInf, _ | _, posInf => posInf
  | negInf, _ | _, negInf => negInf
  | negZero, negZero => negZero
  | fin a, fin b => fin (a + b)
  | fin a, negZero | negZero, fin a => fin a

def sub (x y : PyFloat) : PyFloat := x.add y.neg

/-- The product of finite values, with the sign a zero product keeps. -/
def mulRat (x y : PyFloat) (a b : ℚ) : PyFloat :=
  if a * b = 0 then zero (x.signBit != y.signBit) else fin (a * b)

def mul (x y : PyFloat) : PyFloat :=
  match x, y with
  | nan, _ | _, nan => nan
  | _, _ =>
    match x.rat?, y.rat? with
    | some a, some b => mulRat x y a b
    | some a, none | none, some a => if a = 0 then nan else inf (x.signBit != y.signBit)
    | none, none => inf (x.signBit != y.signBit)

/-- `x / y`, which raises when the divisor is a zero. -/
def div (x y : PyFloat) : Except PyError PyFloat :=
  match y.rat? with
  | some b =>
    if b = 0 then .error .zeroDivisionError
    else match x, x.rat? with
      | nan, _ => .ok nan
      | _, some a => .ok (if a = 0 then zero (x.signBit != y.signBit) else fin (a / b))
      | _, none => .ok (inf (x.signBit != y.signBit))
  | none =>
    match x, y with
    | nan, _ | _, nan => .ok nan
    | _, _ =>
      match x.rat? with
      | some _ => .ok (zero (x.signBit != y.signBit))
      | none => .ok nan

/-- The least size that a double rounds to an infinity. -/
def overflow : ℚ := (2 ^ 1024 - 2 ^ 970 : ℕ)

/-- A result as a double holds it: exactly, or from the overflow on as an infinity. -/
def double : PyFloat → PyFloat
  | fin q => if |q| < overflow then fin q else inf (decide (q < 0))
  | x => x

/-- `x < y`, false when either side is a NaN. -/
def lt : PyFloat → PyFloat → Bool
  | nan, _ | _, nan => false
  | posInf, _ => false
  | _, negInf => false
  | negInf, _ => true
  | _, posInf => true
  | x, y => decide (x.rat?.getD 0 < y.rat?.getD 0)

/-- `x <= y`, false when either side is a NaN. -/
def le : PyFloat → PyFloat → Bool
  | nan, _ | _, nan => false
  | negInf, _ => true
  | _, posInf => true
  | posInf, _ => false
  | _, negInf => false
  | x, y => decide (x.rat?.getD 0 ≤ y.rat?.getD 0)

/-- `math.copysign(x, y)`. -/
def copysign (x y : PyFloat) : PyFloat := if y.signBit then x.abs.neg else x.abs

/-- `max(x, y)`: the first argument unless the second is greater. -/
def pyMax (x y : PyFloat) : PyFloat := if x.lt y then y else x

/-- `min(x, y)`: the first argument unless the second is less. -/
def pyMin (x y : PyFloat) : PyFloat := if y.lt x then y else x

/-- `round(x)`. -/
def round : PyFloat → Except PyError ℤ
  | fin q => .ok (roundHalfEven q)
  | negZero => .ok 0
  | posInf | negInf => .error .overflowError
  | nan => .error .valueError

/-- `int(x)`, towards zero. -/
def toInt : PyFloat → Except PyError ℤ
  | fin q => .ok (if q < 0 then ⌈q⌉ else ⌊q⌋)
  | negZero => .ok 0
  | posInf | negInf => .error .overflowError
  | nan => .error .valueError

/-- `bool(x)`. -/
def truthy : PyFloat → Bool
  | fin q => decide (q ≠ 0)
  | negZero => false
  | posInf | negInf | nan => true

/-! ### Finite operands -/

@[simp] theorem add_fin (a b : ℚ) : (fin a).add (fin b) = fin (a + b) := rfl

@[simp] theorem sub_fin (a b : ℚ) : (fin a).sub (fin b) = fin (a - b) := by
  by_cases zero : b = 0
  · simp [sub,neg,zero,add]
  · simp [sub,neg,zero,sub_eq_add_neg]

/-- A product with a positive factor has no negative zero. -/
theorem mul_fin_pos (a : ℚ) {b : ℚ} (positive : 0 < b) : (fin a).mul (fin b) = fin (a * b) := by
  by_cases zero : a = 0
  · simp [mul,rat?,mulRat,zero,signBit,PyFloat.zero,positive.le]
  · simp [mul,rat?,mulRat,zero,positive.ne']

/-- A quotient by a positive divisor has no negative zero. -/
theorem div_fin_pos (a : ℚ) {b : ℚ} (positive : 0 < b) : (fin a).div (fin b) = .ok (fin (a / b)) := by
  by_cases zero : a = 0
  · simp [div,rat?,zero,signBit,PyFloat.zero,positive.le,positive.ne']
  · simp [div,rat?,zero,positive.ne']

@[simp] theorem lt_fin (a b : ℚ) : (fin a).lt (fin b) = decide (a < b) := rfl
@[simp] theorem le_fin (a b : ℚ) : (fin a).le (fin b) = decide (a ≤ b) := rfl
@[simp] theorem abs_fin (a : ℚ) : (fin a).abs = fin |a| := rfl
@[simp] theorem round_fin (a : ℚ) : (fin a).round = .ok (roundHalfEven a) := rfl

theorem mul_fin_rat (a b : ℚ) : ((fin a).mul (fin b)).rat? = some (a * b) := by
  by_cases zero : a * b = 0
  · rw [zero]
    cases sign : (fin a).signBit != (fin b).signBit <;> simp [mul,rat?,mulRat,zero,PyFloat.zero,sign]
  · simp [mul,rat?,mulRat,zero]

/-! A finite value behaves as the rational it stands for, a negative zero as 0. -/

theorem rat_cases {x : PyFloat} {v : ℚ} (finite : x.rat? = some v) : x = fin v ∨ x = negZero ∧ v = 0 := by
  cases x <;> cases finite
  · exact .inl rfl
  · exact .inr ⟨rfl,rfl⟩

theorem add_rat {x y : PyFloat} {a b : ℚ} (first : x.rat? = some a) (second : y.rat? = some b) :
    (x.add y).rat? = some (a + b) := by
  rcases rat_cases first with rfl | ⟨rfl,rfl⟩ <;> rcases rat_cases second with rfl | ⟨rfl,rfl⟩ <;> simp [add,rat?]

theorem neg_rat {x : PyFloat} {a : ℚ} (finite : x.rat? = some a) : x.neg.rat? = some (-a) := by
  rcases rat_cases finite with rfl | ⟨rfl,rfl⟩
  · by_cases zero : a = 0 <;> simp [neg,zero,rat?]
  · simp [neg,rat?]

theorem sub_rat {x y : PyFloat} {a b : ℚ} (first : x.rat? = some a) (second : y.rat? = some b) :
    (x.sub y).rat? = some (a - b) := by
  rw [sub_eq_add_neg]
  exact add_rat first (neg_rat second)

theorem abs_rat {x : PyFloat} {a : ℚ} (finite : x.rat? = some a) : x.abs = fin |a| := by
  rcases rat_cases finite with rfl | ⟨rfl,rfl⟩ <;> simp [abs]

/-- A finite value has a finite quotient by every divisor but a zero. -/
theorem div_rat {x : PyFloat} {v b : ℚ} (finite : x.rat? = some v) (nonzero : b ≠ 0) :
    ∃ y, x.div (fin b) = .ok y ∧ y.rat? = some (v / b) := by
  have done : x.div (fin b) = .ok (if v = 0 then zero (x.signBit != (fin b).signBit) else fin (v / b)) := by
    cases x <;> cases finite <;> simp [div,rat?,nonzero]
  refine ⟨_,done,?_⟩
  split_ifs with none
  · rw [none,zero_div]
    cases x.signBit != (fin b).signBit <;> rfl
  · rfl

/-- A finite value is rounded as the rational it stands for. -/
theorem round_rat {x : PyFloat} {v : ℚ} (finite : x.rat? = some v) : x.round = .ok (roundHalfEven v) := by
  rcases rat_cases finite with rfl | ⟨rfl,rfl⟩
  · rfl
  · rw [roundHalfEven_zero]
    rfl

/-- A quotient that can be rounded is of a finite value. -/
theorem div_round {x y : PyFloat} {b : ℚ} {n : ℤ} (divided : x.div (fin b) = .ok y) (rounded : y.round = .ok n) :
    b ≠ 0 ∧ ∃ v, x.rat? = some v ∧ n = roundHalfEven (v / b) := by
  have nonzero : b ≠ 0 := by
    rintro rfl
    simp [div,rat?] at divided
  refine ⟨nonzero,?_⟩
  cases finite : x.rat? with
  | some v =>
    obtain ⟨y',divided',quotient⟩ := div_rat finite nonzero
    cases divided.symm.trans divided'
    exact ⟨v,rfl,Except.ok.inj (rounded.symm.trans (round_rat quotient))⟩
  | none =>
    -- The quotient is infinite or not a number, like its dividend.
    cases x with
    | fin | negZero => cases finite
    | nan =>
      simp only [div,rat?,nonzero,if_false,Except.ok.injEq] at divided
      subst divided
      cases rounded
    | posInf | negInf =>
      simp only [div,rat?,nonzero,if_false,Except.ok.injEq] at divided
      subst divided
      unfold inf at rounded
      split_ifs at rounded <;> cases rounded

theorem overflow_pos : 0 < overflow := by
  have apart (least greatest : ℕ) (less : least < greatest) : 0 < ((2 ^ greatest - 2 ^ least : ℕ) : ℚ) :=
    Nat.cast_pos.mpr (Nat.sub_pos_of_lt (Nat.pow_lt_pow_right one_lt_two less))
  exact apart 970 1024 (by norm_num)

/-- A double holds a finite value below the overflow as it is. -/
theorem double_below {x : PyFloat} {v : ℚ} (finite : x.rat? = some v) (below : |v| < overflow) : x.double = x := by
  rcases rat_cases finite with rfl | ⟨rfl,_⟩
  · simp [double,below]
  · rfl

/-- From the overflow on it holds an infinity. -/
theorem double_above {x : PyFloat} {v : ℚ} (finite : x.rat? = some v) (above : overflow ≤ |v|) :
    x.double = inf (decide (v < 0)) := by
  rcases rat_cases finite with rfl | ⟨rfl,rfl⟩
  · simp [double,above.not_gt]
  · rw [abs_zero] at above
    exact absurd above overflow_pos.not_ge

theorem double_special {x : PyFloat} (special : x.rat? = none) : x.double = x := by
  cases x <;> first | rfl | cases special

/-- Only what is finite as a double is rounded. -/
theorem double_of_round {x : PyFloat} {n : ℤ} (rounded : x.double.round = .ok n) : x.double = x := by
  cases finite : x.rat? with
  | none => exact double_special finite
  | some v =>
    rcases lt_or_ge |v| overflow with below | above
    · exact double_below finite below
    · rw [double_above finite above] at rounded
      cases sign : decide (v < 0) <;> rw [sign] at rounded <;> cases rounded

/-- `copysign` of a positive size: the size with the sign of the other operand. -/
theorem copysign_fin {size : ℚ} (positive : 0 < size) (a : ℚ) :
    (fin size).copysign (fin a) = fin (if a < 0 then -size else size) := by
  by_cases negative : a < 0
  · simp [copysign,signBit,negative,neg,abs_of_pos positive,positive.ne']
  · simp [copysign,signBit,negative,abs_of_pos positive]

end PyFloat

/-- A value that is a `bool`, an `int` or a `float`. -/
inductive Value
  | bool (b : Bool)
  | int (n : ℤ)
  | float (x : PyFloat)
deriving DecidableEq

namespace Value

/-- The value as a float; as an operand a `bool` counts as 0 or 1. -/
def toFloat : Value → PyFloat
  | bool b => .fin (if b then 1 else 0)
  | int n => .fin n
  | float x => x

/-- `int(value)`. -/
def toInt : Value → Except PyError ℤ
  | bool b => .ok (if b then 1 else 0)
  | int n => .ok n
  | float x => x.toInt

/-- `bool(value)`. -/
def truthy : Value → Bool
  | bool b => b
  | int n => decide (n ≠ 0)
  | float x => x.truthy

end Value
end MockPlant.Python
