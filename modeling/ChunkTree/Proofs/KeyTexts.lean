import ChunkTree.Key.Text
import ChunkTree.Proofs.ChunkPlaces

/-!
# Keys and their digits

What is read from hexadecimal digits is decided byte by byte, and an odd length is the first thing to be
reported.  `Key.ofDigits` reads any bytes at all, and `Key.ofHex` those of a text (`Key.ofHex_eq`).  The
digits of a key are two lower-case ones for each byte, they read back, and their order is that of the
keys (`Key.compare_toHex`).
-/

namespace ChunkTree

namespace Bytes

theorem ofText_append (first second : String) :
    ofText (first ++ second) = ofText first ++ ofText second := by
  simp [ofText]

theorem ofText_injective {first second : String} (same : ofText first = ofText second) :
    first = second :=
  String.toByteArray_inj.mp (ByteArray.ext same)

theorem toList_ofText (text : String) :
    (ofText text).toList = text.toList.flatMap String.utf8EncodeChar := by
  have spelled : text.toUTF8 = text.toList.utf8Encode := by
    rw [← String.toByteArray_ofList, String.ofList_toList, String.toUTF8_eq_toByteArray]
  rw [ofText, spelled, List.utf8Encode, List.data_toByteArray, List.toList_toArray]

theorem length_toList_ofText (text : String) : (ofText text).toList.length = text.utf8ByteSize :=
  rfl

end Bytes

namespace Hex

/-- The byte is the code of a digit, of either case. -/
def IsDigitByte (byte : UInt8) : Prop :=
  (48 ≤ byte ∧ byte ≤ 57) ∨ (97 ≤ byte ∧ byte ≤ 102) ∨ (65 ≤ byte ∧ byte ≤ 70)

instance : DecidablePred IsDigitByte :=
  fun byte => inferInstanceAs (Decidable ((48 ≤ byte ∧ byte ≤ 57) ∨ _))

/-- The byte with the capitals among the digits in lower case. -/
def lowered (byte : UInt8) : UInt8 := if 65 ≤ byte ∧ byte ≤ 70 then byte + 32 else byte

/-- The character with this code. -/
def character (byte : UInt8) : Char := Char.ofNat byte.toNat

variable {c : Char} {chars : List Char} {bytes : List UInt8} {value : Nat}

/-- A byte stands for a digit exactly if it is the code of one, and its digit in lower case has the lowered
code. -/
theorem value?_character (byte : UInt8) :
    (value? (character byte)).map (fun value => (digit value).toUInt8) =
      if IsDigitByte byte then some (lowered byte) else none := by
  have each : ∀ number : Fin 256,
      (value? (character (UInt8.ofNat number.val))).map (fun value => (digit value).toUInt8) =
        if IsDigitByte (UInt8.ofNat number.val) then some (lowered (UInt8.ofNat number.val))
        else none := by
    decide +kernel
  have here := each ⟨byte.toNat, byte.toNat_lt⟩
  rwa [UInt8.ofNat_toNat] at here

theorem isSome_value?_character (byte : UInt8) :
    (value? (character byte)).isSome ↔ IsDigitByte byte := by
  have read := value?_character byte
  by_cases isDigit : IsDigitByte byte
  · rw [if_pos isDigit] at read
    obtain ⟨value, read, -⟩ := Option.map_eq_some_iff.mp read
    simp only [read, Option.isSome_some, isDigit]
  · rw [if_neg isDigit, Option.map_eq_none_iff] at read
    simp only [read, Option.isSome_none, Bool.false_eq_true, isDigit]

theorem toUInt8_digit_of_value? {byte : UInt8} (read : value? (character byte) = some value) :
    (digit value).toUInt8 = lowered byte := by
  have isDigit := (isSome_value?_character byte).mp (by rw [read]; rfl)
  have both := value?_character byte
  rw [read, if_pos isDigit] at both
  exact Option.some.inj both

theorem toNat_lt_of_value? (read : value? c = some value) : c.toNat < 128 := by
  unfold value? at read
  split at read
  next small => exact Nat.lt_of_le_of_lt small.2 (by decide)
  next =>
    split at read
    next small => exact Nat.lt_of_le_of_lt small.2 (by decide)
    next =>
      split at read
      next small => exact Nat.lt_of_le_of_lt small.2 (by decide)
      next => cases read

theorem lt_of_value? (read : value? c = some value) : value < 16 := by
  have each : ∀ number : Fin 128, ∀ value ∈ value? (Char.ofNat number.val), value < 16 := by
    decide +kernel
  have here := each ⟨c.toNat, toNat_lt_of_value? read⟩ value
  rw [Char.ofNat_toNat] at here
  exact here read

/-- A character below 128 is one byte, which stands for it. -/
theorem utf8EncodeChar_of_lt (small : c.toNat < 128) :
    String.utf8EncodeChar c = [c.toUInt8] ∧ character c.toUInt8 = c := by
  constructor
  · have within : c.val.toNat ≤ 127 := Nat.le_of_lt_succ small
    rw [String.utf8EncodeChar, if_pos within]
    rfl
  · have word : c.toUInt8.toNat = c.toNat := by
      rw [Char.toUInt8, UInt32.toNat_toUInt8]
      exact Nat.mod_eq_of_lt (Nat.lt_trans small (by decide))
    rw [character, word, Char.ofNat_toNat]

/-- The last byte of a character from 128 on is no digit. -/
theorem exists_not_isDigitByte (large : 128 ≤ c.toNat) :
    ∃ byte ∈ String.utf8EncodeChar c, ¬ IsDigitByte byte := by
  have above : ¬ c.val.toNat ≤ 127 := Nat.not_le.mpr large
  refine ⟨UInt8.ofNat (c.val.toNat % 64 + 128), ?_, ?_⟩
  · rw [String.utf8EncodeChar, if_neg above]
    split_ifs
    · exact List.mem_cons_of_mem _ List.mem_cons_self
    · exact List.mem_cons_of_mem _ (List.mem_cons_of_mem _ List.mem_cons_self)
    · exact List.mem_cons_of_mem _
        (List.mem_cons_of_mem _ (List.mem_cons_of_mem _ List.mem_cons_self))
  · have word : (UInt8.ofNat (c.val.toNat % 64 + 128)).toNat = c.val.toNat % 64 + 128 := by
      rw [UInt8.toNat_ofNat', Nat.mod_eq_of_lt (by omega)]
    intro isDigit
    simp only [IsDigitByte, UInt8.le_iff_toNat_le, word, UInt8.reduceToNat] at isDigit
    omega

/-- A pair of digits is read, and then the rest. -/
theorem decode?_cons_cons {high low : Char} {rest : List Char} :
    decode? (high :: low :: rest) = some bytes ↔
      ∃ first, value? high = some first ∧ ∃ second, value? low = some second ∧
        ∃ others, decode? rest = some others ∧
          UInt8.ofNat (16 * first + second) :: others = bytes := by
  simp only [decode?, Option.bind_eq_bind, Option.bind_eq_some_iff, Option.pure_def,
    Option.some.injEq]

/-- Characters are read exactly if they are digits, and not odd in number. -/
theorem exists_decode?_iff (chars : List Char) :
    (∃ bytes, decode? chars = some bytes) ↔
      chars.length % 2 = 0 ∧ ∀ c ∈ chars, (value? c).isSome := by
  induction chars using decode?.induct with
  | case1 => simp [decode?]
  | case2 c => simp [decode?]
  | case3 high low rest ih =>
      have parity : (high :: low :: rest).length % 2 = rest.length % 2 := by
        simp only [List.length_cons]
        omega
      rw [parity, List.forall_mem_cons, List.forall_mem_cons]
      constructor
      · rintro ⟨bytes, read⟩
        obtain ⟨first, readHigh, second, readLow, others, readRest, -⟩ := decode?_cons_cons.mp read
        obtain ⟨even, digits⟩ := ih.mp ⟨others, readRest⟩
        exact ⟨even, by rw [readHigh]; rfl, by rw [readLow]; rfl, digits⟩
      · rintro ⟨even, isHigh, isLow, digits⟩
        obtain ⟨first, readHigh⟩ := Option.isSome_iff_exists.mp isHigh
        obtain ⟨second, readLow⟩ := Option.isSome_iff_exists.mp isLow
        obtain ⟨others, readRest⟩ := ih.mpr ⟨even, digits⟩
        exact ⟨_, decode?_cons_cons.mpr ⟨first, readHigh, second, readLow, others, readRest, rfl⟩⟩

/-- Two digits are written for the byte that they stand for. -/
theorem ofByte_of_lt {first second : Nat} (small : first < 16) (less : second < 16) :
    ofByte (UInt8.ofNat (16 * first + second)) = [digit first, digit second] := by
  have word : (UInt8.ofNat (16 * first + second)).toNat = 16 * first + second := by
    rw [UInt8.toNat_ofNat', Nat.mod_eq_of_lt (by omega)]
  have upper : (16 * first + second) / 16 = first := by omega
  have lower : (16 * first + second) % 16 = second := by omega
  rw [ofByte, word, upper, lower]

/-- What was read is written as the same digits, in lower case. -/
theorem map_encode_of_decode? {text : List UInt8}
    (read : decode? (text.map character) = some bytes) :
    (encode bytes).map Char.toUInt8 = text.map lowered := by
  induction text using List.twoStepInduction generalizing bytes with
  | nil =>
      cases Option.some.inj read
      rfl
  | singleton byte => cases read
  | cons_cons high low rest ih _ =>
      obtain ⟨first, readHigh, second, readLow, others, readRest, rfl⟩ := decode?_cons_cons.mp read
      have pair := ofByte_of_lt (lt_of_value? readHigh) (lt_of_value? readLow)
      rw [encode, List.flatMap_cons, pair, List.map_append, ← encode, ih readRest, List.map_cons,
        List.map_cons, List.map_nil, toUInt8_digit_of_value? readHigh,
        toUInt8_digit_of_value? readLow]
      rfl

/-- The bytes of characters below 128 are their codes. -/
theorem flatMap_utf8EncodeChar (small : ∀ c ∈ chars, c.toNat < 128) :
    chars.flatMap String.utf8EncodeChar = chars.map Char.toUInt8 := by
  induction chars with
  | nil => rfl
  | cons c rest ih =>
      obtain ⟨here, others⟩ := List.forall_mem_cons.mp small
      rw [List.flatMap_cons, (utf8EncodeChar_of_lt here).1, ih others]
      rfl

theorem IsDigits.toNat_lt (digits : IsDigits chars) : ∀ c ∈ chars, c.toNat < 128 := by
  intro c member
  obtain ⟨value, small, rfl⟩ := digits c member
  exact toNat_lt_of_value? (value?_digit small)

/-- A text is read alike through its characters and through its bytes. -/
theorem decode?_toList_ofText (text : String) :
    decode? ((Bytes.ofText text).toList.map character) = decode? text.toList := by
  rw [Bytes.toList_ofText]
  by_cases small : ∀ c ∈ text.toList, c.toNat < 128
  · have same : (text.toList.map Char.toUInt8).map character = text.toList := by
      rw [List.map_map]
      exact (List.map_congr_left fun c member => (utf8EncodeChar_of_lt (small c member)).2).trans
        (List.map_id _)
    rw [flatMap_utf8EncodeChar small, same]
  · -- A character from 128 on is no digit, and not all of its bytes are.
    simp only [not_forall, not_lt] at small
    obtain ⟨c, member, large⟩ := small
    have noText : decode? text.toList = none := by
      refine Option.eq_none_iff_forall_not_mem.mpr fun bytes read => ?_
      obtain ⟨value, isDigit⟩ := Option.isSome_iff_exists.mp
        (((exists_decode?_iff _).mp ⟨bytes, read⟩).2 c member)
      exact absurd (toNat_lt_of_value? isDigit) (Nat.not_lt.mpr large)
    have noBytes :
        decode? ((text.toList.flatMap String.utf8EncodeChar).map character) = none := by
      refine Option.eq_none_iff_forall_not_mem.mpr fun bytes read => ?_
      obtain ⟨byte, inside, isNone⟩ := exists_not_isDigitByte large
      have among : character byte ∈ (text.toList.flatMap String.utf8EncodeChar).map character :=
        List.mem_map_of_mem (List.mem_flatMap.mpr ⟨c, member, inside⟩)
      exact isNone ((isSome_value?_character byte).mp
        (((exists_decode?_iff _).mp ⟨bytes, read⟩).2 _ among))
    rw [noText, noBytes]

/-! ### The order of digits -/

/-- Digits have the order of their values. -/
theorem compare_digit {first second : Nat} (small : first < 16) (less : second < 16) :
    compare (digit first).toUInt8 (digit second).toUInt8 = compare first second := by
  have each : ∀ first second : Fin 16,
      compare (digit first.val).toUInt8 (digit second.val).toUInt8 =
        compare first.val second.val := by
    decide
  exact each ⟨first, small⟩ ⟨second, less⟩

/-- The higher digit decides, and the lower one if the higher ones are the same. -/
theorem compare_div_then_mod (first second : Nat) :
    (compare (first / 16) (second / 16)).then (compare (first % 16) (second % 16)) =
      compare first second := by
  rcases Nat.lt_trichotomy (first / 16) (second / 16) with less | same | more
  · have whole : first < second := by omega
    rw [Nat.compare_eq_lt.mpr less, Nat.compare_eq_lt.mpr whole]
    rfl
  · rw [Nat.compare_eq_eq.mpr same, Ordering.eq_then]
    rcases Nat.lt_trichotomy (first % 16) (second % 16) with less | equal | more
    · have whole : first < second := by omega
      rw [Nat.compare_eq_lt.mpr less, Nat.compare_eq_lt.mpr whole]
    · have whole : first = second := by omega
      rw [Nat.compare_eq_eq.mpr equal, Nat.compare_eq_eq.mpr whole]
    · have whole : second < first := by omega
      rw [Nat.compare_eq_gt.mpr more, Nat.compare_eq_gt.mpr whole]
  · have whole : second < first := by omega
    rw [Nat.compare_eq_gt.mpr more, Nat.compare_eq_gt.mpr whole]
    rfl

/-- Runs of bytes and the runs of their digits have one order. -/
theorem compare_encode (first second : List UInt8) :
    compare ((encode first).map Char.toUInt8) ((encode second).map Char.toUInt8) =
      compare first second := by
  induction first generalizing second with
  | nil =>
      cases second with
      | nil => rfl
      | cons byte rest => rfl
  | cons byte rest ih =>
      cases second with
      | nil => rfl
      | cons other others =>
          have bound := byte.toNat_lt
          have limit := other.toNat_lt
          have head (byte : UInt8) (rest : List UInt8) :
              (encode (byte :: rest)).map Char.toUInt8 =
                (digit (byte.toNat / 16)).toUInt8 :: (digit (byte.toNat % 16)).toUInt8 ::
                  (encode rest).map Char.toUInt8 := rfl
          rw [head, head]
          rw [List.compare_eq_compareLex, List.compareLex_cons_cons, List.compareLex_cons_cons,
            List.compareLex_cons_cons, ← List.compare_eq_compareLex, ih,
            compare_digit (by omega) (by omega), compare_digit (by omega) (by omega), ← Ordering.then_assoc, compare_div_then_mod,
            UInt8.compare_eq_toNat_compare_toNat]

end Hex

namespace Key

/-- What is wrong with digits that are those of no key. -/
inductive Misspelt where
  | oddLength (count : Nat)
  | badDigit
deriving DecidableEq

/-- The fault that is reported of a text. -/
def Misspelt.fault (text : String) : Misspelt → Fault
  | .oddLength count => .oddHex count
  | .badDigit => .notHex text

/-- The key written in these bytes, whether or not they are the bytes of a text. -/
def ofDigits (text : List UInt8) : Except Misspelt Key :=
  if text.length % 2 ≠ 0 then .error (.oddLength text.length)
  else match Hex.decode? (text.map Hex.character) with
    | some bytes => .ok ⟨bytes.toArray⟩
    | none => .error .badDigit

variable {key : Key} {text : List UInt8}

/-- A key is read from a text as from its bytes. -/
theorem ofHex_eq (text : String) :
    ofHex text = (ofDigits (Bytes.ofText text).toList).mapError (Misspelt.fault text) := by
  rw [ofHex, ofDigits, Hex.decode?_toList_ofText, Bytes.length_toList_ofText]
  by_cases odd : text.utf8ByteSize % 2 ≠ 0
  · rw [if_pos odd, if_pos odd]
    rfl
  · rw [if_neg odd, if_neg odd]
    rcases Hex.decode? text.toList with _ | bytes
    · rfl
    · rfl

theorem ofDigits_eq_ok_iff :
    ofDigits text = .ok key ↔ Hex.decode? (text.map Hex.character) = some key.bytes.toList := by
  rw [ofDigits]
  rcases read : Hex.decode? (text.map Hex.character) with _ | bytes
  · split_ifs
    · simp
    · simp
  · have even := ((Hex.exists_decode?_iff _).mp ⟨bytes, read⟩).1
    rw [List.length_map] at even
    rw [if_neg (by omega), Except.ok.injEq, Option.some.injEq]
    constructor
    · rintro rfl
      rfl
    · rintro rfl
      rfl

/-- Digits in pairs are a key, and nothing else is. -/
theorem exists_ofDigits_iff (text : List UInt8) :
    (∃ key, ofDigits text = .ok key) ↔
      text.length % 2 = 0 ∧ ∀ byte ∈ text, Hex.IsDigitByte byte := by
  have read := Hex.exists_decode?_iff (text.map Hex.character)
  rw [List.length_map, List.forall_mem_map] at read
  simp only [Hex.isSome_value?_character] at read
  rw [← read]
  constructor
  · rintro ⟨key, success⟩
    exact ⟨_, ofDigits_eq_ok_iff.mp success⟩
  · rintro ⟨bytes, success⟩
    exact ⟨⟨bytes.toArray⟩, ofDigits_eq_ok_iff.mpr success⟩

/-- The length is looked at before the characters are. -/
theorem ofDigits_of_error {fault : Misspelt} (failed : ofDigits text = .error fault) :
    fault = if text.length % 2 = 1 then .oddLength text.length else .badDigit := by
  unfold ofDigits at failed
  by_cases odd : text.length % 2 = 1
  · rw [if_pos (by omega)] at failed
    rw [if_pos odd]
    exact (Except.error.inj failed).symm
  · rw [if_neg (by omega)] at failed
    rw [if_neg odd]
    split at failed
    · cases failed
    · exact (Except.error.inj failed).symm

theorem toList_ofText_toHex (key : Key) :
    (Bytes.ofText key.toHex).toList = (Hex.encode key.bytes.toList).map Char.toUInt8 := by
  rw [Bytes.toList_ofText, toHex, String.toList_ofList,
    Hex.flatMap_utf8EncodeChar (Hex.isDigits_encode _).toNat_lt]

/-- What was read is written as it stood, in lower case. -/
theorem toList_ofText_of_ofDigits (success : ofDigits text = .ok key) :
    (Bytes.ofText key.toHex).toList = text.map Hex.lowered := by
  rw [toList_ofText_toHex, Hex.map_encode_of_decode? (ofDigits_eq_ok_iff.mp success)]

/-- A key is written in lower-case digits, two for each byte. -/
theorem toHex_digits (key : Key) :
    key.toHex.toList.length = 2 * key.size ∧
      ∀ c ∈ key.toHex.toList, c ∈ "0123456789abcdef".toList := by
  rw [toHex, String.toList_ofList]
  refine ⟨Hex.length_encode _, fun c member => ?_⟩
  have each : ∀ value : Fin 16, Hex.digit value.val ∈ "0123456789abcdef".toList := by decide
  obtain ⟨value, small, rfl⟩ := Hex.isDigits_encode _ c member
  exact each ⟨value, small⟩

/-- A key reads back from its digits. -/
theorem ofHex_toHex (key : Key) : ofHex key.toHex = .ok key := by
  have digits := Hex.isDigits_encode key.bytes.toList
  rw [ofHex, toHex, digits.utf8ByteSize, Hex.length_encode, if_neg (by omega), String.toList_ofList,
    Hex.decode?_encode]

theorem toHex_injective {first second : Key} (same : first.toHex = second.toHex) :
    first = second := by
  have read := congrArg ofHex same
  rw [ofHex_toHex, ofHex_toHex] at read
  exact Except.ok.inj read

/-- Keys and their texts have one order, that of their bytes. -/
theorem compare_toHex (first second : Key) :
    compare (Bytes.ofText first.toHex) (Bytes.ofText second.toHex) = compare first second := by
  rw [Array.compare_eq_compare_toList, toList_ofText_toHex, toList_ofText_toHex,
    Hex.compare_encode, ← Array.compare_eq_compare_toList]
  rfl

theorem ofHex_eq_ok_iff (text : String) :
    ofHex text = .ok key ↔ ofDigits (Bytes.ofText text).toList = .ok key := by
  rw [ofHex_eq]
  rcases ofDigits (Bytes.ofText text).toList with misspelt | found
  · constructor
    · intro success
      cases success
    · intro success
      cases success
  · rw [Except.mapError, Except.ok.injEq, Except.ok.injEq]

/-- **Keys are written in digits, and read from them.**  Every key has its digits, two lower-case ones for
each byte, and reads back.  Any bytes are read exactly if they are digits in pairs, and what was read has
them as its digits, in lower case; if not, an odd length is what is reported, whatever else is wrong.  A
text is read as its bytes are.  The digits of keys have the order of the keys. -/
theorem digits_of_keys :
    (∀ key : Key, ofHex key.toHex = .ok key ∧ key.toHex.toList.length = 2 * key.size ∧
      ∀ c ∈ key.toHex.toList, c ∈ "0123456789abcdef".toList) ∧
    (∀ text : List UInt8,
      ((∃ key, ofDigits text = .ok key) ↔
        text.length % 2 = 0 ∧ ∀ byte ∈ text, Hex.IsDigitByte byte) ∧
      (∀ key, ofDigits text = .ok key →
        (Bytes.ofText key.toHex).toList = text.map Hex.lowered) ∧
      ∀ fault, ofDigits text = .error fault →
        fault = if text.length % 2 = 1 then .oddLength text.length else .badDigit) ∧
    (∀ text : String,
      ofHex text = (ofDigits (Bytes.ofText text).toList).mapError (Misspelt.fault text) ∧
      ((∃ key, ofHex text = .ok key) ↔
        text.utf8ByteSize % 2 = 0 ∧ ∀ byte ∈ (Bytes.ofText text).toList, Hex.IsDigitByte byte) ∧
      (∀ key, ofHex text = .ok key →
        (Bytes.ofText key.toHex).toList = (Bytes.ofText text).toList.map Hex.lowered) ∧
      ∀ fault, ofHex text = .error fault →
        fault = if text.utf8ByteSize % 2 = 1 then .oddHex text.utf8ByteSize else .notHex text) ∧
    ∀ first second : Key,
      compare (Bytes.ofText first.toHex) (Bytes.ofText second.toHex) = compare first second := by
  refine ⟨fun key => ⟨ofHex_toHex key, toHex_digits key⟩,
    fun text => ⟨exists_ofDigits_iff text, fun key => toList_ofText_of_ofDigits,
      fun fault => ofDigits_of_error⟩,
    fun text => ⟨ofHex_eq text, ?_, fun key success => ?_, fun fault failed => ?_⟩,
    compare_toHex⟩
  · simp only [ofHex_eq_ok_iff]
    exact exists_ofDigits_iff _
  · exact toList_ofText_of_ofDigits ((ofHex_eq_ok_iff text).mp success)
  · rw [ofHex_eq] at failed
    rcases read : ofDigits (Bytes.ofText text).toList with misspelt | key
    · rw [read] at failed
      have which := ofDigits_of_error read
      rw [Bytes.length_toList_ofText] at which
      subst which
      rw [← Except.error.inj failed]
      split_ifs
      · rfl
      · rfl
    · rw [read] at failed
      cases failed

end Key

end ChunkTree
