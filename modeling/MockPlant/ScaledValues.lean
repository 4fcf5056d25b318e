import MockPlant.Codec

/-!
Scaled values in integer registers. Encoding takes a value to the integer number of
scale steps nearest to it, and fails exactly where that integer is out of the range of
the type; decoding multiplies it by the scale again. So of all word lists those of a
value are the nearest to it, and the two together are idempotent and keep the order.
-/
namespace MockPlant.ScaledValues
open MockPlant.Python MockPlant.Contract MockPlant.Codec MockPlant.Rounding

/-- The number of scale steps that a value is encoded as. -/
def steps (mapping : ModbusMapping) (v : ℚ) : ℤ := roundHalfEven (v / mapping.scale)

section
variable {mapping : ModbusMapping} {lo hi : ℤ} (metadata : Meta) (integer : intBounds mapping.type = some (lo,hi))
  (nonzero : mapping.scale ≠ 0)
include integer nonzero

/-- A value is encoded exactly when its steps are in the range of the type. -/
theorem encode_range {value : Value} {v : ℚ} (finite : value.toFloat.rat? = some v) :
    ((∃ words, encode mapping value metadata = .ok words) ↔ lo ≤ steps mapping v ∧ steps mapping v ≤ hi) ∧
      (¬ (lo ≤ steps mapping v ∧ steps mapping v ≤ hi) → encode mapping value metadata = .error .structError) := by
  have rounded := encode_rounded metadata (Option.isSome_of_eq_some integer) nonzero finite
  have refused (outside : ¬ (lo ≤ steps mapping v ∧ steps mapping v ≤ hi)) :
      encode mapping value metadata = .error .structError := rounded.trans (valueToWords_int_error metadata integer outside)
  refine ⟨⟨?_,?_⟩,refused⟩
  · rintro ⟨words,encoded⟩
    by_contra outside
    cases encoded.symm.trans (refused outside)
  · rintro ⟨low,high⟩
    obtain ⟨words,encoded,_⟩ := int_value_round_trip metadata integer low high
    exact ⟨words,rounded.trans encoded⟩

omit nonzero in
/-- Decoding the words of a value gives its steps times the scale. -/
theorem decode_encode {value : Value} {v : ℚ} (finite : value.toFloat.rat? = some v) {words : List ℕ}
    (encoded : encode mapping value metadata = .ok words) :
    ∃ x, decode mapping words metadata = .ok (.float x) ∧ x.rat? = some (steps mapping v * mapping.scale) := by
  obtain ⟨_,v',finite',decoded⟩ := decode_encode_int integer encoded
  cases finite.symm.trans finite'
  exact ⟨_,decoded,PyFloat.mul_fin_rat _ _⟩

/-- Whatever is decoded is some number of steps times the scale, and is encoded as the same words. -/
theorem decode_steps {words : List ℕ} {value : Value} (decoded : decode mapping words metadata = .ok value) :
    ∃ n : ℤ, value.toFloat.rat? = some (n * mapping.scale) ∧ encode mapping value metadata = .ok words := by
  have isWords := isWords_of_decode (Option.isSome_of_eq_some integer) decoded
  obtain ⟨n,_,_,read,_⟩ := int_words_round_trip metadata integer isWords
  obtain ⟨value',decoded',encoded⟩ := scaled_round_trip metadata (Option.isSome_of_eq_some integer) nonzero isWords
  cases decoded.symm.trans decoded'
  refine ⟨n,?_,encoded⟩
  have notBool : mapping.type ≠ .bool := fun h => by simp [h,intBounds] at integer
  simp only [decode,decodeBy,id,read,bind,Except.bind,notBool,if_false,pure,Except.pure,Except.ok.injEq] at decoded
  subst decoded
  exact PyFloat.mul_fin_rat _ _

/-- What the words of a value decode to: within half a step of it, no farther from it than
    what any other words decode to, and encoded as the words again. -/
structure Nearest (mapping : ModbusMapping) (metadata : Meta) (v : ℚ) (words : List ℕ) (x : PyFloat) (r : ℚ) : Prop where
  decoded : decode mapping words metadata = .ok (.float x)
  rational : x.rat? = some r
  half : |r - v| ≤ |mapping.scale| / 2
  nearest : ∀ others value r', decode mapping others metadata = .ok value → value.toFloat.rat? = some r' →
    |r - v| ≤ |r' - v|
  idempotent : encode mapping (.float x) metadata = .ok words

theorem encode_nearest {value : Value} {v : ℚ} (finite : value.toFloat.rat? = some v) {words : List ℕ}
    (encoded : encode mapping value metadata = .ok words) :
    ∃ x, Nearest mapping metadata v words x (steps mapping v * mapping.scale) := by
  obtain ⟨x,decoded,rational⟩ := decode_encode metadata integer finite encoded
  refine ⟨x,decoded,rational,abs_roundHalfEven_mul_sub nonzero v,?_,?_⟩
  · intro others value' r' other finite'
    obtain ⟨n,rational',_⟩ := decode_steps metadata integer nonzero other
    cases finite'.symm.trans rational'
    exact abs_roundHalfEven_mul_sub_le nonzero v n
  · obtain ⟨_,_,again⟩ := decode_steps metadata integer nonzero decoded
    exact again

end

theorem steps_mono {mapping : ModbusMapping} (positive : 0 < mapping.scale) {v w : ℚ} (le : v ≤ w) :
    steps mapping v ≤ steps mapping w := by
  unfold steps
  apply roundHalfEven_mono
  gcongr

/-- For every layout, integer type and nonzero scale: a value is encoded exactly when its
    nearest number of steps, ties to even, is in the range of the type; its words then
    decode to the value nearest to it; and with a positive scale the order is kept. -/
theorem scaled_encoding (metadata : Meta) {mapping : ModbusMapping} {lo hi : ℤ}
    (integer : intBounds mapping.type = some (lo,hi)) (nonzero : mapping.scale ≠ 0) :
    (∀ value v, value.toFloat.rat? = some v →
      ((∃ words, encode mapping value metadata = .ok words) ↔
        lo ≤ roundHalfEven (v / mapping.scale) ∧ roundHalfEven (v / mapping.scale) ≤ hi) ∧
      (¬ (lo ≤ roundHalfEven (v / mapping.scale) ∧ roundHalfEven (v / mapping.scale) ≤ hi) →
        encode mapping value metadata = .error .structError) ∧
      ∀ words, encode mapping value metadata = .ok words → ∃ x r, Nearest mapping metadata v words x r) ∧
    (0 < mapping.scale → ∀ first second v w words words' x y r t, first.toFloat.rat? = some v →
      second.toFloat.rat? = some w → v ≤ w → encode mapping first metadata = .ok words →
      encode mapping second metadata = .ok words' → decode mapping words metadata = .ok (.float x) →
      decode mapping words' metadata = .ok (.float y) → x.rat? = some r → y.rat? = some t → r ≤ t) := by
  refine ⟨fun value v finite => ?_,?_⟩
  · obtain ⟨range,refused⟩ := encode_range metadata integer nonzero finite
    refine ⟨range,refused,fun words encoded => ?_⟩
    obtain ⟨x,nearest⟩ := encode_nearest metadata integer nonzero finite encoded
    exact ⟨x,_,nearest⟩
  · intro positive first second v w words words' x y r t finite finite' le encoded encoded' decoded decoded' hr ht
    obtain ⟨_,read,rational⟩ := decode_encode metadata integer finite encoded
    obtain ⟨_,read',rational'⟩ := decode_encode metadata integer finite' encoded'
    cases decoded.symm.trans read
    cases decoded'.symm.trans read'
    cases hr.symm.trans rational
    cases ht.symm.trans rational'
    gcongr
    exact steps_mono positive le

/-- A tie of the shipped speed's scale, in a layout that the plant does not use. -/
theorem scaled_encoding_tie :
    let mapping : ModbusMapping := ⟨.holding,10,.uint16,1 / 1000⟩
    let metadata : Meta := ⟨.lowFirst,.little,10⟩
    ((∃ words, encode mapping (.float (.fin (3 / 2000))) metadata = .ok words) ↔
      0 ≤ roundHalfEven ((3 / 2000 : ℚ) / (1 / 1000)) ∧ roundHalfEven ((3 / 2000 : ℚ) / (1 / 1000)) ≤ 65535) ∧
    ∃ x r, Nearest mapping metadata (3 / 2000) [2] x r := by
  intro mapping metadata
  obtain ⟨range,_,nearest⟩ := (scaled_encoding metadata (rfl : intBounds mapping.type = some (0,65535))
    (by norm_num [mapping])).1 (.float (.fin (3 / 2000))) _ rfl
  exact ⟨range,nearest [2] (by decide +kernel)⟩

end MockPlant.ScaledValues
