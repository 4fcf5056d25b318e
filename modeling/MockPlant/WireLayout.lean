import MockPlant.Codec

/-!
The layout on the wire, in arithmetic of its own: a value is a pattern of 16 or 32 bits,
whose words go out most significant first or least significant first, each with its two
bytes exchanged or not. The codec's packing, cutting, swapping and reversing comes to
exactly that, in both directions.
-/
namespace MockPlant.WireLayout
open MockPlant.Python MockPlant.Contract MockPlant.Codec MockPlant.Struct

/-! ### The layout -/

/-- A word with its two bytes exchanged. -/
def exchange (w : ℕ) : ℕ := w % 256 * 256 + w / 256

/-- A word of a value of two registers as the byte order has it. -/
def byteOrdered (metadata : Meta) (w : ℕ) : ℕ := if metadata.byteOrder = .little then exchange w else w

/-- The words of a pattern. One register holds it as it is under every order. -/
def layout (metadata : Meta) (width pattern : ℕ) : List ℕ :=
  if width = 1 then [pattern]
  else
    let hi := byteOrdered metadata (pattern / 65536)
    let lo := byteOrdered metadata (pattern % 65536)
    if metadata.wordOrder = .lowFirst then [lo,hi] else [hi,lo]

/-- The most significant word of a value. -/
def highWord (metadata : Meta) : List ℕ → ℕ
  | [a,b] => byteOrdered metadata (if metadata.wordOrder = .lowFirst then b else a)
  | words => words.headD 0

/-- The pattern that words stand for. -/
def pattern (metadata : Meta) : List ℕ → ℕ
  | [a,b] =>
    if metadata.wordOrder = .lowFirst then byteOrdered metadata b * 65536 + byteOrdered metadata a
    else byteOrdered metadata a * 65536 + byteOrdered metadata b
  | words => words.headD 0

def signed : ModbusType → Bool
  | .int16 | .int32 => true
  | _ => false

/-- The two's complement integer of words, with the sign in the top bit of the most significant one. -/
def integer (metadata : Meta) (type : ModbusType) (words : List ℕ) : ℤ :=
  if signed type ∧ 32768 ≤ highWord metadata words then (pattern metadata words : ℤ) - 2 ^ (16 * type.width)
  else pattern metadata words

/-! ### Bytes and words -/

theorem toBytes_two (n : ℕ) : toBytes 2 n = [n / 256 % 256,n % 256] := rfl

theorem toBytes_four (n : ℕ) :
    toBytes 4 n = [n / 256 / 256 / 256 % 256,n / 256 / 256 % 256,n / 256 % 256,n % 256] := rfl

theorem fromBytes_pair (a b : ℕ) : fromBytes [a,b] = 256 * a + b := by
  simp [fromBytes]

theorem arrange_one (metadata : Meta) {n : ℕ} (fits : n < 2 ^ 16) :
    (arrange metadata (chunksOf2 (toBytes 2 n))).map fromBytes = layout metadata 1 n := by
  simp only [toBytes_two,chunksOf2,arrange,List.length_singleton,lt_irrefl,if_false,List.map_cons,List.map_nil,
    fromBytes_pair,layout,if_true,List.cons.injEq,and_true]
  omega

theorem arrange_two (metadata : Meta) {n : ℕ} (fits : n < 2 ^ 32) :
    (arrange metadata (chunksOf2 (toBytes 4 n))).map fromBytes = layout metadata 2 n := by
  obtain ⟨wordOrder,byteOrder,_⟩ := metadata
  cases wordOrder <;> cases byteOrder <;>
    simp [toBytes_four,chunksOf2,arrange,swapWords,swapBytes,fromBytes_pair,layout,byteOrdered,exchange] <;> omega

theorem restore_one (metadata : Meta) {w : ℕ} (fits : w < 65536) :
    fromBytes (restore 1 metadata ([w].map (toBytes 2))).flatten = pattern metadata [w] := by
  simp only [List.map_cons,List.map_nil,toBytes_two,restore,lt_irrefl,if_false,List.flatten_cons,List.flatten_nil,
    List.append_nil,fromBytes_pair,pattern,List.headD_cons]
  omega

theorem restore_two (metadata : Meta) {a b : ℕ} (fitsA : a < 65536) (fitsB : b < 65536) :
    fromBytes (restore 2 metadata ([a,b].map (toBytes 2))).flatten = pattern metadata [a,b] := by
  obtain ⟨wordOrder,byteOrder,_⟩ := metadata
  cases wordOrder <;> cases byteOrder <;>
    simp [toBytes_two,restore,swapWords,swapBytes,fromBytes,pattern,byteOrdered,exchange] <;> omega

theorem byteOrdered_lt (metadata : Meta) {w : ℕ} (fits : w < 65536) : byteOrdered metadata w < 65536 := by
  unfold byteOrdered exchange
  split_ifs <;> omega

theorem byteOrdered_byteOrdered (metadata : Meta) {w : ℕ} (fits : w < 65536) :
    byteOrdered metadata (byteOrdered metadata w) = w := by
  unfold byteOrdered exchange
  split_ifs <;> omega

theorem layout_two (metadata : Meta) {hi lo : ℕ} (small : lo < 65536) : layout metadata 2 (hi * 65536 + lo) =
    if metadata.wordOrder = .lowFirst then [byteOrdered metadata lo,byteOrdered metadata hi]
    else [byteOrdered metadata hi,byteOrdered metadata lo] := by
  have high : (hi * 65536 + lo) / 65536 = hi := by omega
  have rest : (hi * 65536 + lo) % 65536 = lo := by omega
  simp [layout,high,rest]

theorem widths (type : ModbusType) : type.width = 1 ∨ type.width = 2 := by
  cases type <;> simp [ModbusType.width]

/-- A pattern of words is laid out as the words. -/
theorem layout_pattern (metadata : Meta) {type : ModbusType} {words : List ℕ} (isWords : IsWords type words) :
    layout metadata type.width (pattern metadata words) = words ∧ pattern metadata words < 2 ^ (16 * type.width) := by
  obtain ⟨length,fits⟩ := isWords
  rcases widths type with one | two
  · obtain ⟨w,rfl⟩ := List.length_eq_one_iff.mp (length.trans one)
    have small := fits w (by simp)
    rw [one]
    exact ⟨rfl,by simpa [pattern] using small⟩
  · obtain ⟨a,b,rfl⟩ := List.length_eq_two.mp (length.trans two)
    have fitsA := fits a (by simp)
    have fitsB := fits b (by simp)
    have smallA := byteOrdered_lt metadata fitsA
    have smallB := byteOrdered_lt metadata fitsB
    rw [two]
    by_cases low : metadata.wordOrder = .lowFirst
    · simp only [pattern,low,if_true,layout_two metadata smallA,byteOrdered_byteOrdered metadata fitsA,
        byteOrdered_byteOrdered metadata fitsB,true_and]
      omega
    · simp only [pattern,low,if_false,layout_two metadata smallB,byteOrdered_byteOrdered metadata fitsA,
        byteOrdered_byteOrdered metadata fitsB,true_and]
      omega

/-- The sign bit of a pattern is the top bit of its most significant word. -/
theorem highWord_iff (metadata : Meta) {type : ModbusType} {words : List ℕ} (isWords : IsWords type words) :
    32768 ≤ highWord metadata words ↔ 2 ^ (16 * type.width) ≤ 2 * pattern metadata words := by
  obtain ⟨length,fits⟩ := isWords
  rcases widths type with one | two
  · obtain ⟨w,rfl⟩ := List.length_eq_one_iff.mp (length.trans one)
    rw [one]
    simp only [highWord,pattern,List.headD_cons]
    omega
  · obtain ⟨a,b,rfl⟩ := List.length_eq_two.mp (length.trans two)
    have smallA := byteOrdered_lt metadata (fits a (by simp))
    have smallB := byteOrdered_lt metadata (fits b (by simp))
    rw [two]
    by_cases low : metadata.wordOrder = .lowFirst
    · simp only [highWord,pattern,low,if_true]
      omega
    · simp only [highWord,pattern,low,if_false]
      omega

/-! ### The codec -/

/-- Bytes of a pattern go out as its layout. -/
theorem valueToWords_layout {type : ModbusType} {format : Format} (metadata : Meta)
    (known : structFormat type = some format) {value : Value} {n : ℕ} (fits : n < 2 ^ (16 * type.width))
    (packed : pack format value = .ok (toBytes (2 * type.width) n)) :
    valueToWords value type metadata = .ok (layout metadata type.width n) := by
  have notBool := (structFormat_size known).2
  simp only [valueToWords,notBool,if_false,known,packed,bind,Except.bind,pure,Except.pure,Except.ok.injEq]
  rcases widths type with one | two
  · rw [one] at fits ⊢
    exact arrange_one metadata fits
  · rw [two] at fits ⊢
    exact arrange_two metadata fits

/-- Words are unpacked from the bytes of their pattern. -/
theorem wordsToValue_pattern {type : ModbusType} {format : Format} (metadata : Meta)
    (known : structFormat type = some format) {words : List ℕ} (isWords : IsWords type words) :
    ∃ bytes, bytes.length = format.size ∧ fromBytes bytes = pattern metadata words ∧
      wordsToValue words type metadata = unpack format bytes := by
  obtain ⟨size,notBool⟩ := structFormat_size known
  obtain ⟨length,fits⟩ := isWords
  have restored := restore_isChunks type.width metadata (toBytes_isChunks words)
  have count : (restore type.width metadata (words.map (toBytes 2))).length = type.width := by
    unfold restore
    split_ifs <;> simp [length]
  refine ⟨(restore type.width metadata (words.map (toBytes 2))).flatten,?_,?_,?_⟩
  · rw [flatten_length restored,count,size]
  · rcases widths type with one | two
    · obtain ⟨w,rfl⟩ := List.length_eq_one_iff.mp (length.trans one)
      rw [one]
      exact restore_one metadata (fits w (by simp))
    · obtain ⟨a,b,rfl⟩ := List.length_eq_two.mp (length.trans two)
      rw [two]
      exact restore_two metadata (fits a (by simp)) (fits b (by simp))
  · simp only [wordsToValue,notBool,if_false,known,length,ne_eq,not_true,mapM_wordBytes fits,bind,Except.bind]

/-- The format of an integer type has its width and its sign. -/
theorem intBounds_signed {type : ModbusType} {lo hi : ℤ} (bounds : intBounds type = some (lo,hi)) :
    structFormat type = some (.int (2 * type.width) (signed type)) ∧
      ∀ n, InRange (2 * type.width) (signed type) n ↔ lo ≤ n ∧ n ≤ hi := by
  obtain ⟨size,sign,known,_,range⟩ := intBounds_format bounds
  have same : structFormat type = some (.int (2 * type.width) (signed type)) := by
    cases type <;> first | rfl | simp [intBounds] at bounds
  cases known.symm.trans same
  exact ⟨same,range⟩

theorem power_words (width : ℕ) : (256 : ℕ) ^ (2 * width) = 2 ^ (16 * width) := by
  rw [show (256 : ℕ) = 2 ^ 8 from rfl,← pow_mul]
  congr 1
  ring

theorem int_layout {type : ModbusType} {lo hi : ℤ} (metadata : Meta) (bounds : intBounds type = some (lo,hi)) {v : ℤ}
    (low : lo ≤ v) (high : v ≤ hi) : valueToWords (.int v) type metadata =
      .ok (layout metadata type.width (v % 2 ^ (16 * type.width)).toNat) := by
  obtain ⟨known,range⟩ := intBounds_signed bounds
  have power : (256 : ℤ) ^ (2 * type.width) = 2 ^ (16 * type.width) := by exact_mod_cast power_words type.width
  have positive : (0 : ℤ) < 2 ^ (16 * type.width) := by positivity
  refine valueToWords_layout metadata known ?_ ?_
  · have below := Int.emod_lt_of_pos v positive
    zify
    rw [Int.toNat_of_nonneg (Int.emod_nonneg v positive.ne')]
    exact below
  · simp only [pack,Value.toInt,bind,Except.bind,(range v).mpr ⟨low,high⟩,if_true,power]

theorem int_words {type : ModbusType} {lo hi : ℤ} (metadata : Meta) (bounds : intBounds type = some (lo,hi))
    {words : List ℕ} (isWords : IsWords type words) :
    wordsToValue words type metadata = .ok (.int (integer metadata type words)) := by
  obtain ⟨known,_⟩ := intBounds_signed bounds
  obtain ⟨bytes,length,here,read⟩ := wordsToValue_pattern metadata known isWords
  have power : (256 : ℤ) ^ (2 * type.width) = 2 ^ (16 * type.width) := by exact_mod_cast power_words type.width
  rw [read]
  simp only [unpack,length,ne_eq,not_true,if_false,here,fromResidue,integer,power,power_words,
    highWord_iff metadata isWords]

/-- A packed pattern has 32 bits. -/
theorem pack_lt {x : PyFloat} {bits : ℕ} (packed : Binary32.pack x = some bits) : bits < 2 ^ 32 := by
  unfold Binary32.pack at packed
  split at packed
  · cases packed
    decide
  · cases packed
    decide
  · cases packed
    decide
  · cases packed
    decide
  · split_ifs at packed with zero large negative <;> cases packed <;> omega

theorem float_layout (metadata : Meta) {x : PyFloat} {bits : ℕ} (packed : Binary32.pack x = some bits) :
    valueToWords (.float x) .float32 metadata = .ok (layout metadata 2 bits) := by
  refine valueToWords_layout metadata float32_format (pack_lt packed) ?_
  simp only [pack,Value.toFloat,packed]
  rfl

theorem float_words (metadata : Meta) {words : List ℕ} (isWords : IsWords .float32 words) :
    wordsToValue words .float32 metadata = .ok (.float (Binary32.unpack (pattern metadata words))) := by
  obtain ⟨bytes,length,here,read⟩ := wordsToValue_pattern metadata float32_format isWords
  rw [read]
  simp only [unpack,length,ne_eq,not_true,if_false,here]

/-- For every type and every layout the codec is the arithmetic one. A value goes out as
    the layout of its pattern, an integer's in two's complement and a float's in binary32;
    and every word list is the layout of the pattern that it is read as, with the sign of
    an integer in the top bit of the most significant word. -/
theorem wire_layout (metadata : Meta) :
    (∀ type lo hi, intBounds type = some (lo,hi) →
      (∀ v, lo ≤ v → v ≤ hi → valueToWords (.int v) type metadata =
        .ok (layout metadata type.width (v % 2 ^ (16 * type.width)).toNat)) ∧
      ∀ words, IsWords type words → layout metadata type.width (pattern metadata words) = words ∧
        wordsToValue words type metadata = .ok (.int (integer metadata type words))) ∧
    (∀ x bits, Binary32.pack x = some bits → valueToWords (.float x) .float32 metadata = .ok (layout metadata 2 bits)) ∧
    ∀ words, IsWords .float32 words → layout metadata 2 (pattern metadata words) = words ∧
      wordsToValue words .float32 metadata = .ok (.float (Binary32.unpack (pattern metadata words))) := by
  refine ⟨fun type lo hi bounds => ⟨fun v low high => ?_,fun words isWords => ?_⟩,fun x bits packed => ?_,
    fun words isWords => ?_⟩
  · exact int_layout metadata bounds low high
  · exact ⟨(layout_pattern metadata isWords).1,int_words metadata bounds isWords⟩
  · exact float_layout metadata packed
  · exact ⟨(layout_pattern metadata isWords).1,float_words metadata isWords⟩

/-- A negative integer and a float in the layout that exchanges words and bytes. -/
theorem wire_layout_swapped :
    let metadata : Meta := ⟨.lowFirst,.little,10⟩
    valueToWords (.int (-66052)) .int32 metadata = .ok [64765,65279] ∧
      wordsToValue [64765,65279] .int32 metadata = .ok (.int (-66052)) ∧
      valueToWords (.float (.fin (1 / 2))) .float32 metadata = .ok [0,63] := by
  intro metadata
  obtain ⟨integers,floats,_⟩ := wire_layout metadata
  obtain ⟨values,words⟩ := integers .int32 _ _ rfl
  refine ⟨?_,?_,?_⟩
  · rw [values (-66052) (by decide) (by decide)]
    decide +kernel
  · rw [(words [64765,65279] (by decide)).2]
    decide +kernel
  · rw [floats (.fin (1 / 2)) 0x3F000000 (by decide +kernel)]
    decide +kernel

end MockPlant.WireLayout
