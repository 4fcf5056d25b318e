import MockPlant.Contract
import MockPlant.Struct

/-!
Values and the register words they travel in. Encoding swaps the bytes of each
word and then reverses the words, as the contract's orders ask; decoding undoes
the two in the opposite order.
-/
namespace MockPlant.Codec
open MockPlant.Python MockPlant.Contract MockPlant.Struct MockPlant.Rounding
open MockPlant.Binary32 (FinitePattern signField)

/-- `_STRUCT_FORMAT`. -/
def structFormat : ModbusType → Option Format
  | .int16 => some (.int 2 true)
  | .uint16 => some (.int 2 false)
  | .int32 => some (.int 4 true)
  | .uint32 => some (.int 4 false)
  | .float32 => some .float
  | .bool => none

/-- `[packed[i : i + 2] for i in range(0, len(packed), 2)]`. -/
def chunksOf2 : List ℕ → List (List ℕ)
  | a :: b :: rest => [a,b] :: chunksOf2 rest
  | [a] => [[a]]
  | [] => []

def swapBytes (metadata : Meta) (chunks : List (List ℕ)) : List (List ℕ) :=
  if metadata.byteOrder = .little then chunks.map List.reverse else chunks

def swapWords (metadata : Meta) (chunks : List (List ℕ)) : List (List ℕ) :=
  if metadata.wordOrder = .lowFirst then chunks.reverse else chunks

/-- The reordering of `value_to_words`, for values of more than one register. -/
def arrange (metadata : Meta) (chunks : List (List ℕ)) : List (List ℕ) :=
  if 1 < chunks.length then swapWords metadata (swapBytes metadata chunks) else chunks

/-- The reordering of `words_to_value`. -/
def restore (width : ℕ) (metadata : Meta) (chunks : List (List ℕ)) : List (List ℕ) :=
  if 1 < width then swapBytes metadata (swapWords metadata chunks) else chunks

def unknownType (type : ModbusType) : PyError := contractError ("unknown modbus type '" ++ type.text ++ "'")

def valueToWords (value : Value) (type : ModbusType) (metadata : Meta) : Except PyError (List ℕ) :=
  if type = .bool then .ok [if value.truthy then 1 else 0]
  else match structFormat type with
    | none => .error (unknownType type)
    | some format => do
      let packed ← pack format value
      pure ((arrange metadata (chunksOf2 packed)).map fromBytes)

/-- `w.to_bytes(2, "big")`, which raises on a word that does not fit. -/
def wordBytes (w : ℕ) : Except PyError (List ℕ) :=
  if w < 65536 then .ok (toBytes 2 w) else .error .overflowError

def wordsToValue (words : List ℕ) (type : ModbusType) (metadata : Meta) : Except PyError Value :=
  if type = .bool then
    match words with
    | [] => .error .indexError
    | w :: _ => .ok (.bool (decide (w ≠ 0)))
  else match structFormat type with
    | none => .error (unknownType type)
    | some format =>
      if words.length ≠ type.width then
        .error (contractError (type.text ++ " needs " ++ toString type.width ++ " register(s), got " ++
          toString words.length))
      else do
        let chunks ← words.mapM wordBytes
        unpack format (restore type.width metadata chunks).flatten

/-- `decode`, with what becomes of the product. -/
def decodeBy (result : PyFloat → PyFloat) (mapping : ModbusMapping) (words : List ℕ) (metadata : Meta) :
    Except PyError Value := do
  let value ← wordsToValue words mapping.type metadata
  if mapping.type = .bool then pure value
  else pure (.float (result (value.toFloat.mul (.fin mapping.scale))))

/-- `encode`, with what becomes of the quotient. -/
def encodeBy (result : PyFloat → PyFloat) (mapping : ModbusMapping) (value : Value) (metadata : Meta) :
    Except PyError (List ℕ) :=
  if mapping.type = .bool then valueToWords value mapping.type metadata
  else do
    let quotient ← value.toFloat.div (.fin mapping.scale)
    let scaled := result quotient
    if mapping.type ≠ .float32 then
      let n ← scaled.round
      valueToWords (.int n) mapping.type metadata
    else valueToWords (.float scaled) mapping.type metadata

/-- `decode` in exact arithmetic. -/
def decode (mapping : ModbusMapping) (words : List ℕ) (metadata : Meta) : Except PyError Value :=
  decodeBy id mapping words metadata

/-- `encode` in exact arithmetic. -/
def encode (mapping : ModbusMapping) (value : Value) (metadata : Meta) : Except PyError (List ℕ) :=
  encodeBy id mapping value metadata

/-- `decode` on doubles, whose product can overflow. -/
def decodeDouble (mapping : ModbusMapping) (words : List ℕ) (metadata : Meta) : Except PyError Value :=
  decodeBy PyFloat.double mapping words metadata

/-- `encode` on doubles, whose quotient can overflow. -/
def encodeDouble (mapping : ModbusMapping) (value : Value) (metadata : Meta) : Except PyError (List ℕ) :=
  encodeBy PyFloat.double mapping value metadata

/-! ### Reordering -/

/-- Two-byte chunks, as a register holds them. -/
def IsChunks (chunks : List (List ℕ)) : Prop := ∀ chunk ∈ chunks, chunk.length = 2 ∧ IsBytes chunk

theorem swapBytes_swapBytes (metadata : Meta) (chunks : List (List ℕ)) :
    swapBytes metadata (swapBytes metadata chunks) = chunks := by
  unfold swapBytes
  split_ifs
  · simp
  · rfl

theorem swapWords_swapWords (metadata : Meta) (chunks : List (List ℕ)) :
    swapWords metadata (swapWords metadata chunks) = chunks := by
  unfold swapWords
  split_ifs
  · simp
  · rfl

@[simp] theorem swapBytes_length (metadata : Meta) (chunks : List (List ℕ)) :
    (swapBytes metadata chunks).length = chunks.length := by
  unfold swapBytes
  split_ifs <;> simp

@[simp] theorem swapWords_length (metadata : Meta) (chunks : List (List ℕ)) :
    (swapWords metadata chunks).length = chunks.length := by
  unfold swapWords
  split_ifs <;> simp

theorem swapBytes_isChunks {metadata : Meta} {chunks : List (List ℕ)} (isChunks : IsChunks chunks) :
    IsChunks (swapBytes metadata chunks) := by
  unfold swapBytes
  split_ifs
  · intro chunk member
    obtain ⟨original,source,rfl⟩ := List.mem_map.mp member
    obtain ⟨length,bytes⟩ := isChunks original source
    exact ⟨by simpa using length,fun byte inside => bytes byte (List.mem_reverse.mp inside)⟩
  · exact isChunks

theorem swapWords_isChunks {metadata : Meta} {chunks : List (List ℕ)} (isChunks : IsChunks chunks) :
    IsChunks (swapWords metadata chunks) := by
  unfold swapWords
  split_ifs
  · intro chunk member
    exact isChunks chunk (List.mem_reverse.mp member)
  · exact isChunks

@[simp] theorem arrange_length (metadata : Meta) (chunks : List (List ℕ)) :
    (arrange metadata chunks).length = chunks.length := by
  unfold arrange
  split_ifs <;> simp

theorem arrange_isChunks (metadata : Meta) {chunks : List (List ℕ)} (isChunks : IsChunks chunks) :
    IsChunks (arrange metadata chunks) := by
  unfold arrange
  split_ifs
  · exact swapWords_isChunks (swapBytes_isChunks isChunks)
  · exact isChunks

theorem restore_isChunks (width : ℕ) (metadata : Meta) {chunks : List (List ℕ)} (isChunks : IsChunks chunks) :
    IsChunks (restore width metadata chunks) := by
  unfold restore
  split_ifs
  · exact swapBytes_isChunks (swapWords_isChunks isChunks)
  · exact isChunks

/-- The decoder undoes the encoder's two swaps in the opposite order. -/
theorem restore_arrange (metadata : Meta) (chunks : List (List ℕ)) :
    restore chunks.length metadata (arrange metadata chunks) = chunks := by
  unfold restore arrange
  split_ifs
  · rw [swapWords_swapWords,swapBytes_swapBytes]
  · rfl

theorem arrange_restore (metadata : Meta) (chunks : List (List ℕ)) :
    arrange metadata (restore chunks.length metadata chunks) = chunks := by
  by_cases several : 1 < chunks.length
  · simp only [restore,arrange,several,if_true,swapBytes_length,swapWords_length]
    rw [swapBytes_swapBytes,swapWords_swapWords]
  · simp only [restore,arrange,several,if_false]

theorem chunksOf2_flatten {chunks : List (List ℕ)} (isChunks : IsChunks chunks) :
    chunksOf2 chunks.flatten = chunks := by
  induction chunks with
  | nil => rfl
  | cons chunk rest ih =>
    obtain ⟨length,_⟩ := isChunks chunk (by simp)
    have tail := ih (fun c member => isChunks c (List.mem_cons_of_mem _ member))
    obtain ⟨a,b,rfl⟩ := List.length_eq_two.mp length
    simp [chunksOf2,tail]

/-- Cutting an even number of bytes into chunks loses none of them. -/
theorem chunksOf2_spec (count : ℕ) {bytes : List ℕ} (length : bytes.length = 2 * count) (isBytes : IsBytes bytes) :
    (chunksOf2 bytes).flatten = bytes ∧ (chunksOf2 bytes).length = count ∧ IsChunks (chunksOf2 bytes) := by
  induction count generalizing bytes with
  | zero =>
    obtain rfl := List.length_eq_zero_iff.mp length
    exact ⟨rfl,rfl,by intro chunk member; simp [chunksOf2] at member⟩
  | succ count ih =>
    obtain ⟨a,b,rest,rfl⟩ : ∃ a b rest, bytes = a :: b :: rest := by
      match bytes,length with
      | a :: b :: rest,_ => exact ⟨a,b,rest,rfl⟩
      | [a],length => simp at length; omega
      | [],length => simp at length
    have restBytes : IsBytes rest := fun byte member => isBytes byte (by simp [member])
    obtain ⟨flat,size,chunks⟩ := ih (by simp at length; omega) restBytes
    refine ⟨by simp [chunksOf2,flat],by simp [chunksOf2,size],?_⟩
    intro chunk member
    rcases List.mem_cons.mp member with rfl | later
    · exact ⟨rfl,fun byte inside => isBytes byte (by simp at inside ⊢; tauto)⟩
    · exact chunks chunk later

theorem flatten_length {chunks : List (List ℕ)} (isChunks : IsChunks chunks) :
    chunks.flatten.length = 2 * chunks.length := by
  induction chunks with
  | nil => rfl
  | cons chunk rest ih =>
    have tail := ih (fun c member => isChunks c (List.mem_cons_of_mem _ member))
    have head := (isChunks chunk (by simp)).1
    simp [tail,head]
    omega

theorem flatten_isBytes {chunks : List (List ℕ)} (isChunks : IsChunks chunks) : IsBytes chunks.flatten := by
  intro byte member
  obtain ⟨chunk,inside,here⟩ := List.mem_flatten.mp member
  exact (isChunks chunk inside).2 byte here

/-! ### Words -/

/-- The words of one value of a type: as many as its width, each of 16 bits. -/
def IsWords (type : ModbusType) (words : List ℕ) : Prop := words.length = type.width ∧ ∀ w ∈ words, w < 65536

instance (type : ModbusType) (words : List ℕ) : Decidable (IsWords type words) := inferInstanceAs (Decidable (_ ∧ _))

theorem fromBytes_chunk {chunks : List (List ℕ)} (isChunks : IsChunks chunks) :
    ∀ w ∈ chunks.map fromBytes, w < 65536 := by
  intro w member
  obtain ⟨chunk,inside,rfl⟩ := List.mem_map.mp member
  obtain ⟨length,bytes⟩ := isChunks chunk inside
  have := fromBytes_lt bytes
  rw [length] at this
  omega

theorem toBytes_isChunks (words : List ℕ) : IsChunks (words.map (toBytes 2)) := by
  intro chunk member
  obtain ⟨w,_,rfl⟩ := List.mem_map.mp member
  exact ⟨toBytes_length 2 w,toBytes_isBytes 2 w⟩

theorem mapM_wordBytes {words : List ℕ} (fits : ∀ w ∈ words, w < 65536) :
    words.mapM wordBytes = .ok (words.map (toBytes 2)) := by
  induction words with
  | nil => rfl
  | cons w rest ih =>
    have tail := ih (fun v member => fits v (List.mem_cons_of_mem _ member))
    simp [List.mapM_cons,wordBytes,fits w (by simp),tail,bind,Except.bind,pure,Except.pure]

theorem map_toBytes_fromBytes {chunks : List (List ℕ)} (isChunks : IsChunks chunks) :
    (chunks.map fromBytes).map (toBytes 2) = chunks := by
  rw [List.map_map]
  refine (List.map_congr_left fun chunk member => ?_).trans (List.map_id chunks)
  obtain ⟨length,bytes⟩ := isChunks chunk member
  have back := toBytes_fromBytes bytes
  rwa [length] at back

theorem map_fromBytes_toBytes {words : List ℕ} (fits : ∀ w ∈ words, w < 65536) :
    (words.map (toBytes 2)).map fromBytes = words := by
  rw [List.map_map]
  refine (List.map_congr_left fun w member => ?_).trans (List.map_id words)
  have small := fits w member
  simp only [Function.comp,fromBytes_toBytes,id]
  omega

theorem structFormat_size {type : ModbusType} {format : Format} (known : structFormat type = some format) :
    format.size = 2 * type.width ∧ type ≠ .bool := by
  cases type <;> simp only [structFormat,Option.some.injEq,reduceCtorEq] at known <;> subst known <;>
    exact ⟨rfl,by decide⟩

theorem float32_format : structFormat .float32 = some .float := rfl

/-- Words that carry packed bytes are read back as what the bytes unpack to. -/
theorem wordsToValue_valueToWords {type : ModbusType} {format : Format} (metadata : Meta) {value : Value}
    {bytes : List ℕ} (known : structFormat type = some format) (packed : pack format value = .ok bytes)
    (length : bytes.length = format.size) (isBytes : IsBytes bytes) :
    ∃ words, valueToWords value type metadata = .ok words ∧ IsWords type words ∧
      wordsToValue words type metadata = unpack format bytes := by
  obtain ⟨size,notBool⟩ := structFormat_size known
  obtain ⟨flat,count,isChunks⟩ := chunksOf2_spec type.width (length.trans size) isBytes
  have arranged := arrange_isChunks metadata isChunks
  have fits := fromBytes_chunk arranged
  refine ⟨(arrange metadata (chunksOf2 bytes)).map fromBytes,?_,⟨by simp [count],fits⟩,?_⟩
  · simp [valueToWords,notBool,known,packed,bind,Except.bind,pure,Except.pure]
  · have restored := restore_arrange metadata (chunksOf2 bytes)
    rw [count] at restored
    simp only [wordsToValue,notBool,if_false,known,List.length_map,arrange_length,count,ne_eq,not_true,
      mapM_wordBytes fits,map_toBytes_fromBytes arranged,bind,Except.bind,restored,flat]

/-- Words are read as bytes, and a value packed to those bytes goes out as the same words. -/
theorem valueToWords_wordsToValue {type : ModbusType} {format : Format} (metadata : Meta) {words : List ℕ}
    (known : structFormat type = some format) (isWords : IsWords type words) :
    ∃ bytes, bytes.length = format.size ∧ IsBytes bytes ∧
      wordsToValue words type metadata = unpack format bytes ∧
      ∀ value, pack format value = .ok bytes → valueToWords value type metadata = .ok words := by
  obtain ⟨size,notBool⟩ := structFormat_size known
  obtain ⟨length,fits⟩ := isWords
  have chunks := toBytes_isChunks words
  have restored := restore_isChunks type.width metadata chunks
  have count : (restore type.width metadata (words.map (toBytes 2))).length = type.width := by
    unfold restore
    split_ifs <;> simp [length]
  refine ⟨(restore type.width metadata (words.map (toBytes 2))).flatten,?_,flatten_isBytes restored,?_,?_⟩
  · rw [flatten_length restored,count,size]
  · simp only [wordsToValue,notBool,if_false,known,length,ne_eq,not_true,mapM_wordBytes fits,bind,Except.bind]
  · intro value packed
    have arranged := arrange_restore metadata (words.map (toBytes 2))
    rw [List.length_map,length] at arranged
    simp only [valueToWords,notBool,if_false,known,packed,bind,Except.bind,pure,Except.pure,
      chunksOf2_flatten restored,arranged,map_fromBytes_toBytes fits]

/-- Whatever is encoded, the words are words of the type. -/
theorem valueToWords_isWords {value : Value} {type : ModbusType} {metadata : Meta} {words : List ℕ}
    (encoded : valueToWords value type metadata = .ok words) : IsWords type words := by
  by_cases bool : type = .bool
  · subst bool
    simp only [valueToWords,if_true,Except.ok.injEq] at encoded
    subst encoded
    split_ifs <;> decide
  · simp only [valueToWords,bool,if_false] at encoded
    cases known : structFormat type with
    | none => simp [known] at encoded
    | some format =>
      simp only [known,bind_eq_ok] at encoded
      obtain ⟨bytes,packed,done⟩ := encoded
      cases done
      obtain ⟨length,isBytes⟩ := pack_isBytes packed
      obtain ⟨_,count,isChunks⟩ := chunksOf2_spec type.width (length.trans (structFormat_size known).1) isBytes
      exact ⟨by simp [count],fromBytes_chunk (arrange_isChunks metadata isChunks)⟩

theorem encodeBy_isWords {result : PyFloat → PyFloat} {mapping : ModbusMapping} {value : Value} {metadata : Meta}
    {words : List ℕ} (encoded : encodeBy result mapping value metadata = .ok words) : IsWords mapping.type words := by
  unfold encodeBy at encoded
  split_ifs at encoded
  · exact valueToWords_isWords encoded
  · simp only [bind_eq_ok] at encoded
    obtain ⟨scaled,_,n,_,done⟩ := encoded
    exact valueToWords_isWords done
  · obtain ⟨scaled,_,done⟩ := bind_eq_ok.mp encoded
    exact valueToWords_isWords done

theorem encode_isWords {mapping : ModbusMapping} {value : Value} {metadata : Meta} {words : List ℕ}
    (encoded : encode mapping value metadata = .ok words) : IsWords mapping.type words := encodeBy_isWords encoded

/-- The least and greatest value of an integer type. -/
def intBounds : ModbusType → Option (ℤ × ℤ)
  | .int16 => some (-32768,32767)
  | .uint16 => some (0,65535)
  | .int32 => some (-2147483648,2147483647)
  | .uint32 => some (0,4294967295)
  | .bool | .float32 => none

/-- A finite binary32 value. -/
def IsFloat32 (x : PyFloat) : Prop := ∃ bits, FinitePattern bits ∧ x = Binary32.unpack bits

theorem intBounds_isSome {type : ModbusType} (notBool : type ≠ .bool) (notFloat : type ≠ .float32) :
    (intBounds type).isSome := by
  cases type with
  | bool => exact absurd rfl notBool
  | float32 => exact absurd rfl notFloat
  | uint16 | int16 | uint32 | int32 => rfl

theorem intBounds_format {type : ModbusType} {lo hi : ℤ} (integer : intBounds type = some (lo,hi)) :
    ∃ size signed, structFormat type = some (.int size signed) ∧ size ≠ 0 ∧
      ∀ n, InRange size signed n ↔ lo ≤ n ∧ n ≤ hi := by
  cases type with
  | bool | float32 => simp [intBounds] at integer
  | int16 =>
    cases integer
    exact ⟨2,true,rfl,by decide,fun n => by simp only [InRange,if_true]; omega⟩
  | uint16 =>
    cases integer
    exact ⟨2,false,rfl,by decide,fun n => by simp only [InRange,Bool.false_eq_true,if_false]; omega⟩
  | int32 =>
    cases integer
    exact ⟨4,true,rfl,by decide,fun n => by simp only [InRange,if_true]; omega⟩
  | uint32 =>
    cases integer
    exact ⟨4,false,rfl,by decide,fun n => by simp only [InRange,Bool.false_eq_true,if_false]; omega⟩

/-! ### Round trips -/

/-- Every value of an integer type comes back from its words. -/
theorem int_value_round_trip {type : ModbusType} {lo hi : ℤ} (metadata : Meta)
    (integer : intBounds type = some (lo,hi)) {v : ℤ} (low : lo ≤ v) (high : v ≤ hi) :
    ∃ words, valueToWords (.int v) type metadata = .ok words ∧ IsWords type words ∧
      wordsToValue words type metadata = .ok (.int v) := by
  obtain ⟨size,signed,known,nonempty,range⟩ := intBounds_format integer
  obtain ⟨bytes,packed,length,isBytes,unpacked⟩ := unpack_pack_int nonempty ((range v).mpr ⟨low,high⟩)
  obtain ⟨words,encoded,isWords,decoded⟩ := wordsToValue_valueToWords metadata known packed length isBytes
  exact ⟨words,encoded,isWords,decoded.trans unpacked⟩

/-- Every word list of an integer type comes back from its value. -/
theorem int_words_round_trip {type : ModbusType} {lo hi : ℤ} (metadata : Meta)
    (integer : intBounds type = some (lo,hi)) {words : List ℕ} (isWords : IsWords type words) :
    ∃ v, lo ≤ v ∧ v ≤ hi ∧ wordsToValue words type metadata = .ok (.int v) ∧
      valueToWords (.int v) type metadata = .ok words := by
  obtain ⟨size,signed,known,nonempty,range⟩ := intBounds_format integer
  obtain ⟨bytes,length,isBytes,decoded,encoded⟩ := valueToWords_wordsToValue metadata known isWords
  obtain ⟨v,unpacked,inRange,packed⟩ := pack_unpack_int nonempty signed length isBytes
  obtain ⟨low,high⟩ := (range v).mp inRange
  exact ⟨v,low,high,decoded.trans unpacked,encoded _ packed⟩

theorem float_value_round_trip (metadata : Meta) {x : PyFloat} (finite : IsFloat32 x) :
    ∃ words, valueToWords (.float x) .float32 metadata = .ok words ∧ IsWords .float32 words ∧
      wordsToValue words .float32 metadata = .ok (.float x) := by
  obtain ⟨bits,pattern,rfl⟩ := finite
  have whole : fromBytes (toBytes 4 bits) = bits := by
    rw [fromBytes_toBytes]
    exact Nat.mod_eq_of_lt pattern.1
  have packed : pack .float (.float (Binary32.unpack bits)) = .ok (toBytes 4 bits) := by
    simp [pack,Value.toFloat,Binary32.pack_unpack pattern]
  obtain ⟨words,encoded,isWords,decoded⟩ := wordsToValue_valueToWords metadata float32_format packed
    (toBytes_length 4 bits) (toBytes_isBytes 4 bits)
  refine ⟨words,encoded,isWords,decoded.trans ?_⟩
  simp [unpack,Format.size,whole]

theorem float_words_round_trip (metadata : Meta) {words : List ℕ} (isWords : IsWords .float32 words) :
    ∃ x, wordsToValue words .float32 metadata = .ok (.float x) ∧
      (x.rat?.isSome → valueToWords (.float x) .float32 metadata = .ok words) := by
  obtain ⟨bytes,length,isBytes,decoded,encoded⟩ :=
    valueToWords_wordsToValue metadata float32_format isWords
  have word : fromBytes bytes < 2 ^ 32 := by
    have := fromBytes_lt isBytes
    rw [length] at this
    exact this
  refine ⟨Binary32.unpack (fromBytes bytes),decoded.trans (by simp [unpack,length]),fun finite => ?_⟩
  refine encoded _ (pack_unpack_float length isBytes ⟨word,fun special => ?_⟩)
  -- With the greatest exponent the value is an infinity or a NaN.
  unfold Binary32.unpack at finite
  rw [if_pos special] at finite
  split_ifs at finite with fraction
  · cases sign : signField (fromBytes bytes) <;> simp [PyFloat.inf,sign,PyFloat.rat?] at finite
  · simp [PyFloat.rat?] at finite

/-! ### Scaled values -/

theorem float_div_one (x : PyFloat) : x.div (.fin 1) = .ok x := by
  cases x with
  | fin q => simpa using PyFloat.div_fin_pos q one_pos
  | negZero | posInf | negInf | nan => rfl

/-- The words of an integer that was encoded are read back as it, within the bounds of the type. -/
theorem valueToWords_int_ok {type : ModbusType} {lo hi : ℤ} {metadata : Meta} (integer : intBounds type = some (lo,hi))
    {n : ℤ} {words : List ℕ} (encoded : valueToWords (.int n) type metadata = .ok words) :
    (lo ≤ n ∧ n ≤ hi) ∧ wordsToValue words type metadata = .ok (.int n) := by
  obtain ⟨size,signed,known,_,range⟩ := intBounds_format integer
  have notBool := (structFormat_size known).2
  have inRange : InRange size signed n := by
    simp only [valueToWords,notBool,if_false,known,bind_eq_ok] at encoded
    obtain ⟨bytes,packed,_⟩ := encoded
    simp only [pack,Value.toInt,bind,Except.bind] at packed
    split_ifs at packed with fits
    exact fits
  obtain ⟨low,high⟩ := (range n).mp inRange
  obtain ⟨words',encoded',_,decoded⟩ := int_value_round_trip metadata integer low high
  cases encoded.symm.trans encoded'
  exact ⟨⟨low,high⟩,decoded⟩

/-- An integer outside the bounds of its type is not packed. -/
theorem valueToWords_int_error {type : ModbusType} {lo hi : ℤ} (metadata : Meta) (integer : intBounds type = some (lo,hi))
    {n : ℤ} (outside : ¬ (lo ≤ n ∧ n ≤ hi)) : valueToWords (.int n) type metadata = .error .structError := by
  obtain ⟨size,signed,known,_,range⟩ := intBounds_format integer
  have notBool := (structFormat_size known).2
  have refused : pack (.int size signed) (.int n) = .error .structError := by
    simp only [pack,Value.toInt,bind,Except.bind,(range n).not.mpr outside,if_false]
  simp only [valueToWords,notBool,if_false,known,refused,bind,Except.bind]

/-- For an integer register a finite value is scaled and rounded. -/
theorem encode_rounded {mapping : ModbusMapping} (metadata : Meta) (integer : (intBounds mapping.type).isSome)
    (nonzero : mapping.scale ≠ 0) {value : Value} {v : ℚ} (finite : value.toFloat.rat? = some v) :
    encode mapping value metadata = valueToWords (.int (roundHalfEven (v / mapping.scale))) mapping.type metadata := by
  have notBool : mapping.type ≠ .bool := fun h => by simp [h,intBounds] at integer
  have notFloat : mapping.type ≠ .float32 := fun h => by simp [h,intBounds] at integer
  obtain ⟨scaled,divided,quotient⟩ := PyFloat.div_rat finite nonzero
  simp only [encode,encodeBy,id,notBool,if_false,divided,bind,Except.bind,ne_eq,notFloat,not_false_eq_true,if_true,
    PyFloat.round_rat quotient]

/-- A value that was encoded for an integer register is finite, and its words are read as
    the multiple of the scale next to it. -/
theorem decode_encode_int {mapping : ModbusMapping} {lo hi : ℤ} {metadata : Meta}
    (integer : intBounds mapping.type = some (lo,hi)) {value : Value} {words : List ℕ}
    (encoded : encode mapping value metadata = .ok words) :
    mapping.scale ≠ 0 ∧ ∃ v, value.toFloat.rat? = some v ∧ decode mapping words metadata =
      .ok (.float ((PyFloat.fin (roundHalfEven (v / mapping.scale) : ℤ)).mul (.fin mapping.scale))) := by
  have notBool : mapping.type ≠ .bool := fun h => by simp [h,intBounds] at integer
  have notFloat : mapping.type ≠ .float32 := fun h => by simp [h,intBounds] at integer
  simp only [encode,encodeBy,id,notBool,if_false,ne_eq,notFloat,not_false_eq_true,if_true,bind_eq_ok] at encoded
  obtain ⟨scaled,divided,n,rounded,packed⟩ := encoded
  obtain ⟨nonzero,v,finite,rfl⟩ := PyFloat.div_round divided rounded
  obtain ⟨_,decoded⟩ := valueToWords_int_ok integer packed
  refine ⟨nonzero,v,finite,?_⟩
  simp [decode,decodeBy,decoded,notBool,Value.toFloat,bind,Except.bind,pure,Except.pure]

/-- A multiple of the scale next to a value is within half a step of it. -/
theorem decode_encode_near {mapping : ModbusMapping} {metadata : Meta} (integer : (intBounds mapping.type).isSome)
    {value : Value} {words : List ℕ} (encoded : encode mapping value metadata = .ok words) :
    ∃ v x r, value.toFloat.rat? = some v ∧ decode mapping words metadata = .ok (.float x) ∧ x.rat? = some r ∧
      |r - v| ≤ |mapping.scale| / 2 := by
  obtain ⟨⟨lo,hi⟩,bounds⟩ := Option.isSome_iff_exists.mp integer
  obtain ⟨nonzero,v,finite,decoded⟩ := decode_encode_int bounds encoded
  exact ⟨v,_,_,finite,decoded,PyFloat.mul_fin_rat _ _,abs_roundHalfEven_mul_sub nonzero v⟩

/-- A value whose scaled size is in the range of the integer type is encoded. -/
theorem encode_int {mapping : ModbusMapping} {lo hi : ℤ} (metadata : Meta)
    (integer : intBounds mapping.type = some (lo,hi)) (positive : 0 < mapping.scale) {value : Value} {q : ℚ}
    (finite : value.toFloat = .fin q) (low : lo ≤ q / mapping.scale) (high : q / mapping.scale ≤ hi) :
    ∃ words, encode mapping value metadata = .ok words := by
  have notBool : mapping.type ≠ .bool := fun h => by simp [h,intBounds] at integer
  have notFloat : mapping.type ≠ .float32 := fun h => by simp [h,intBounds] at integer
  obtain ⟨words,encoded,_⟩ := int_value_round_trip metadata integer (le_roundHalfEven low) (roundHalfEven_le high)
  refine ⟨words,?_⟩
  simp only [encode,encodeBy,id,notBool,if_false,finite,PyFloat.div_fin_pos q positive,bind,Except.bind,ne_eq,notFloat,
    not_false_eq_true,if_true,PyFloat.round_fin,encoded]

/-- Words of an integer type are decoded to a multiple of the scale. -/
theorem decode_int {mapping : ModbusMapping} {lo hi : ℤ} (metadata : Meta)
    (integer : intBounds mapping.type = some (lo,hi)) (positive : 0 < mapping.scale) {words : List ℕ}
    (isWords : IsWords mapping.type words) :
    ∃ n : ℤ, lo ≤ n ∧ n ≤ hi ∧ decode mapping words metadata = .ok (.float (.fin (n * mapping.scale))) := by
  have notBool : mapping.type ≠ .bool := fun h => by simp [h,intBounds] at integer
  obtain ⟨n,low,high,decoded,_⟩ := int_words_round_trip metadata integer isWords
  refine ⟨n,low,high,?_⟩
  simp [decode,decodeBy,decoded,notBool,Value.toFloat,PyFloat.mul_fin_pos _ positive,bind,Except.bind,pure,Except.pure]

/-- A float of scale 1 is encoded unless it is finite and beyond the greatest binary32 size. -/
theorem encode_float {mapping : ModbusMapping} (metadata : Meta) (float : mapping.type = .float32)
    (unscaled : mapping.scale = 1) {x : PyFloat} (fits : ∀ q, x = .fin q → |q| ≤ Binary32.largest) :
    ∃ words, encode mapping (.float x) metadata = .ok words := by
  obtain ⟨bits,packed⟩ := Binary32.pack_isSome fits
  have bytes : pack .float (.float x) = .ok (toBytes 4 bits) := by simp [pack,Value.toFloat,packed]
  obtain ⟨words,encoded,_⟩ := wordsToValue_valueToWords metadata float32_format bytes (toBytes_length 4 bits)
    (toBytes_isBytes 4 bits)
  refine ⟨words,?_⟩
  simp [encode,encodeBy,float,unscaled,Value.toFloat,float_div_one,encoded,bind,Except.bind]

/-- Words of a float are decoded to some float. -/
theorem decode_float {mapping : ModbusMapping} (metadata : Meta) (float : mapping.type = .float32) {words : List ℕ}
    (isWords : IsWords mapping.type words) : ∃ x, decode mapping words metadata = .ok (.float x) := by
  rw [float] at isWords
  obtain ⟨x,decoded,_⟩ := float_words_round_trip metadata isWords
  refine ⟨x.mul (.fin mapping.scale),?_⟩
  simp [decode,decodeBy,float,decoded,Value.toFloat,bind,Except.bind,pure,Except.pure]

theorem wordBytes_ok {words : List ℕ} {chunks : List (List ℕ)} (cut : words.mapM wordBytes = .ok chunks) :
    ∀ w ∈ words, w < 65536 := by
  induction words generalizing chunks with
  | nil => simp
  | cons w rest ih =>
    rw [List.mapM_cons] at cut
    obtain ⟨_,here,later⟩ := bind_eq_ok.mp cut
    obtain ⟨_,tail,_⟩ := bind_eq_ok.mp later
    refine List.forall_mem_cons.mpr ⟨?_,ih tail⟩
    unfold wordBytes at here
    split_ifs at here with fits
    exact fits

/-- Nothing but words of the type is decoded for an integer register. -/
theorem isWords_of_decode {mapping : ModbusMapping} {metadata : Meta} (integer : (intBounds mapping.type).isSome)
    {words : List ℕ} {value : Value} (decoded : decode mapping words metadata = .ok value) :
    IsWords mapping.type words := by
  obtain ⟨⟨lo,hi⟩,bounds⟩ := Option.isSome_iff_exists.mp integer
  obtain ⟨size,signed,known,_,_⟩ := intBounds_format bounds
  have notBool := (structFormat_size known).2
  obtain ⟨_,read,_⟩ := bind_eq_ok.mp decoded
  simp only [wordsToValue,notBool,if_false,known] at read
  split_ifs at read with length
  obtain ⟨_,cut,_⟩ := bind_eq_ok.mp read
  exact ⟨not_not.mp length,wordBytes_ok cut⟩

/-- Words of a type are always decoded. -/
theorem decode_isWords {mapping : ModbusMapping} (metadata : Meta) {words : List ℕ} (isWords : IsWords mapping.type words) :
    ∃ value, decode mapping words metadata = .ok value := by
  by_cases bool : mapping.type = .bool
  · obtain ⟨w,rfl⟩ : ∃ w, words = [w] := by
      rw [bool] at isWords
      exact List.length_eq_one_iff.mp isWords.1
    exact ⟨.bool (decide (w ≠ 0)),by simp [decode,decodeBy,bool,wordsToValue,bind,Except.bind,pure,Except.pure]⟩
  · by_cases float : mapping.type = .float32
    · obtain ⟨x,decoded⟩ := decode_float metadata float isWords
      exact ⟨_,decoded⟩
    · obtain ⟨⟨lo,hi⟩,bounds⟩ := Option.isSome_iff_exists.mp (intBounds_isSome bool float)
      obtain ⟨n,_,_,decoded,_⟩ := int_words_round_trip metadata bounds isWords
      exact ⟨.float ((PyFloat.fin n).mul (.fin mapping.scale)),
        by simp [decode,decodeBy,decoded,bool,Value.toFloat,bind,Except.bind,pure,Except.pure]⟩

/-- Multiplying by a scale and dividing by it again rounds back to the integer. -/
theorem round_div_mul (n : ℤ) {scale : ℚ} (nonzero : scale ≠ 0) :
    ∃ x, ((PyFloat.fin n).mul (.fin scale)).div (.fin scale) = .ok x ∧ x.round = .ok n := by
  by_cases zero : n = 0
  · subst zero
    -- The product may be a negative zero, which the second sign cancels.
    refine ⟨.fin 0,?_,by simp [PyFloat.round,roundHalfEven]⟩
    by_cases negative : scale < 0
    · simp [PyFloat.mul,PyFloat.rat?,PyFloat.mulRat,PyFloat.signBit,PyFloat.zero,PyFloat.div,negative,nonzero]
    · simp [PyFloat.mul,PyFloat.rat?,PyFloat.mulRat,PyFloat.signBit,PyFloat.zero,PyFloat.div,negative,nonzero]
  · have size : (n : ℚ) * scale ≠ 0 := mul_ne_zero (by exact_mod_cast zero) nonzero
    refine ⟨.fin n,?_,by simp [PyFloat.round,roundHalfEven_intCast]⟩
    simp [PyFloat.mul,PyFloat.rat?,PyFloat.mulRat,size,PyFloat.div,nonzero]

/-- Every word list of an integer mapping survives decoding and encoding, whatever its scale. -/
theorem scaled_round_trip (metadata : Meta) {mapping : ModbusMapping} (integer : (intBounds mapping.type).isSome)
    (nonzero : mapping.scale ≠ 0) {words : List ℕ} (isWords : IsWords mapping.type words) :
    ∃ value, decode mapping words metadata = .ok value ∧ encode mapping value metadata = .ok words := by
  obtain ⟨⟨lo,hi⟩,bounds⟩ := Option.isSome_iff_exists.mp integer
  obtain ⟨n,_,_,decoded,encoded⟩ := int_words_round_trip metadata bounds isWords
  obtain ⟨x,divided,rounded⟩ := round_div_mul n nonzero
  have notBool : mapping.type ≠ .bool := fun h => by simp [h,intBounds] at bounds
  have notFloat : mapping.type ≠ .float32 := fun h => by simp [h,intBounds] at bounds
  refine ⟨.float ((PyFloat.fin n).mul (.fin mapping.scale)),?_,?_⟩
  · simp [decode,decodeBy,decoded,notBool,Value.toFloat,bind,Except.bind,pure,Except.pure]
  · have scaled : (Value.float ((PyFloat.fin n).mul (.fin mapping.scale))).toFloat.div (.fin mapping.scale) = .ok x :=
      divided
    simp only [encode,encodeBy,id,notBool,if_false,scaled,bind,Except.bind,ne_eq,notFloat,not_false_eq_true,if_true,rounded,
      encoded]

/-- The codec is a bijection in every layout: between the integers of a type and
    its word lists, between the finite floats and their word lists, and through
    any nonzero scale. -/
theorem codec_round_trip (metadata : Meta) :
    (∀ type lo hi, intBounds type = some (lo,hi) →
      (∀ v, lo ≤ v → v ≤ hi → ∃ words, valueToWords (.int v) type metadata = .ok words ∧
        wordsToValue words type metadata = .ok (.int v)) ∧
      ∀ words, IsWords type words → ∃ v, wordsToValue words type metadata = .ok (.int v) ∧
        valueToWords (.int v) type metadata = .ok words) ∧
    (∀ x, IsFloat32 x → ∃ words, valueToWords (.float x) .float32 metadata = .ok words ∧
      wordsToValue words .float32 metadata = .ok (.float x)) ∧
    (∀ words, IsWords .float32 words → ∃ x, wordsToValue words .float32 metadata = .ok (.float x) ∧
      (x.rat?.isSome → valueToWords (.float x) .float32 metadata = .ok words)) ∧
    ∀ mapping : ModbusMapping, (intBounds mapping.type).isSome → mapping.scale ≠ 0 →
      ∀ words, IsWords mapping.type words →
        ∃ value, decode mapping words metadata = .ok value ∧ encode mapping value metadata = .ok words := by
  refine ⟨fun type lo hi integer => ⟨fun v low high => ?_,fun words isWords => ?_⟩,fun x finite => ?_,
    fun words isWords => float_words_round_trip metadata isWords,
    fun mapping integer nonzero words isWords => scaled_round_trip metadata integer nonzero isWords⟩
  · obtain ⟨words,encoded,_,decoded⟩ := int_value_round_trip metadata integer low high
    exact ⟨words,encoded,decoded⟩
  · obtain ⟨v,_,_,decoded,encoded⟩ := int_words_round_trip metadata integer isWords
    exact ⟨v,decoded,encoded⟩
  · obtain ⟨words,encoded,_,decoded⟩ := float_value_round_trip metadata finite
    exact ⟨words,encoded,decoded⟩

/-- The doubly swapped layout, which no register map of the plant uses. -/
theorem codec_round_trip_swapped :
    let metadata : Meta := ⟨.lowFirst,.little,10⟩
    (∃ words, valueToWords (.int (-2)) .int32 metadata = .ok words ∧
      wordsToValue words .int32 metadata = .ok (.int (-2))) ∧
    (∃ words, valueToWords (.float (Binary32.unpack 0x3F000000)) .float32 metadata = .ok words ∧
      wordsToValue words .float32 metadata = .ok (.float (Binary32.unpack 0x3F000000))) ∧
    ∃ value, decode ⟨.holding,10,.uint16,1 / 1000⟩ [1500] metadata = .ok value ∧
      encode ⟨.holding,10,.uint16,1 / 1000⟩ value metadata = .ok [1500] := by
  obtain ⟨ints,floats,_,scaled⟩ := codec_round_trip ⟨.lowFirst,.little,10⟩
  exact ⟨(ints .int32 _ _ rfl).1 (-2) (by decide) (by decide),
    floats _ ⟨0x3F000000,⟨by decide,by decide⟩,rfl⟩,
    scaled ⟨.holding,10,.uint16,1 / 1000⟩ rfl (by norm_num) [1500] (by decide)⟩

end MockPlant.Codec
