import EvmAssembly.ProgramParse
import EvmAssembly.Proofs.PlaceValue
import EvmAssembly.Proofs.WordGrammar

/-!
# The values of literals

Digits are read into a word exactly as long as their value fits into it, so the bytes of a literal
are those of its value.
-/

namespace EvmAssembly

/-- The value of a digit, its position among the digits of either case. -/
def digitValue (c : UInt8) : Nat :=
  min ((utf8 "0123456789abcdef").idxOf c) ((utf8 "0123456789ABCDEF").idxOf c)

/-- The number that digits stand for, the most significant first. -/
def digitsValue (radix : Nat) (digits : Bytes) : Nat := placeValue radix (digits.map digitValue)

def Number.value (number : Number) : Nat := digitsValue number.base.radix.toNat number.digits

theorem digitsValue_cons (radix : Nat) (c : UInt8) (digits : Bytes) :
    digitsValue radix (c :: digits) =
      digitValue c * radix ^ digits.length + digitsValue radix digits := by
  rw [digitsValue, List.map_cons, placeValue_cons, List.length_map, digitsValue]

theorem Base.accepts_digit {base : Base} {c : UInt8} (h : base.accepts c = true) :
    valueOfDigit? c = some (digitValue c) ∧ digitValue c < base.radix.toNat := by
  have hall : ∀ n < 256, base.accepts (UInt8.ofNat n) = true →
      valueOfDigit? (UInt8.ofNat n) = some (digitValue (UInt8.ofNat n)) ∧
        digitValue (UInt8.ofNat n) < base.radix.toNat := by
    cases base <;> decide +kernel
  have hc := hall c.toNat c.toNat_lt
  rw [UInt8.ofNat_toNat] at hc
  exact hc h

theorem literal_size : 2 ^ (8 * literalBytes) = 256 ^ literalBytes := by decide

theorem toNat_literalWord {n : Nat} (h : n < 256 ^ literalBytes) :
    (BitVec.ofNat (8 * literalBytes) n).toNat = n := by
  rw [BitVec.toNat_ofNat, literal_size, Nat.mod_eq_of_lt h]

/-- What a digit leaves of the word. -/
theorem toNat_room {d : Nat} (h : d < 256 ^ literalBytes) :
    (BitVec.allOnes (8 * literalBytes) - BitVec.ofNat _ d).toNat = 256 ^ literalBytes - 1 - d := by
  have hmax : (BitVec.allOnes (8 * literalBytes)).toNat = 256 ^ literalBytes - 1 := by
    rw [BitVec.toNat_allOnes, literal_size]
  rw [BitVec.toNat_sub_of_le, hmax, toNat_literalWord h]
  rw [BitVec.le_def, hmax, toNat_literalWord h]
  omega

/-- Every radix is below the numbers that the word is too small for. -/
theorem radix_lt (radix : UInt32) : radix.toNat < 256 ^ literalBytes :=
  radix.toNat_lt.trans (by decide)

/-- The guard before a digit is taken on is exact: it holds back what the word cannot hold. -/
theorem overflows_iff {word : LiteralWord} {radix d : Nat} (hradix : radix < 256 ^ literalBytes)
    (hd : d < radix) :
    word > (BitVec.allOnes _ - BitVec.ofNat _ d) / BitVec.ofNat _ radix ↔
      256 ^ literalBytes ≤ word.toNat * radix + d := by
  rw [gt_iff_lt, BitVec.lt_def, BitVec.toNat_udiv, toNat_room (by omega), toNat_literalWord hradix,
    Nat.div_lt_iff_lt_mul (by omega)]
  omega

theorem toNat_take_digit {word : LiteralWord} {radix d : Nat}
    (h : word.toNat * radix + d < 256 ^ literalBytes) :
    (word * BitVec.ofNat _ radix + BitVec.ofNat _ d).toNat = word.toNat * radix + d := by
  rw [← literal_size] at h
  rw [BitVec.toNat_add, BitVec.toNat_mul, BitVec.toNat_ofNat, BitVec.toNat_ofNat]
  simp only [Nat.mul_mod_mod, Nat.mod_add_mod, Nat.add_mod_mod]
  exact Nat.mod_eq_of_lt h

/-- Digits are read on as long as the whole number fits into the word. -/
theorem readDigits_eq {radix : UInt32} {digits : Bytes} {word : LiteralWord} {total : Nat}
    (hdigits : ∀ c ∈ digits, valueOfDigit? c = some (digitValue c) ∧ digitValue c < radix.toNat)
    (htotal : word.toNat * radix.toNat ^ digits.length + digitsValue radix.toNat digits = total)
    (literal : Bytes) :
    (total < 256 ^ literalBytes →
      ∃ result, readDigits literal radix word digits = .ok result ∧ result.toNat = total) ∧
    (256 ^ literalBytes ≤ total →
      readDigits literal radix word digits = .error (.immediateTooLarge literal literalBytes)) := by
  induction digits generalizing word with
  | nil =>
    have hword := word.isLt
    have hsame : word.toNat = total := by simpa [digitsValue, placeValue] using htotal
    rw [literal_size, hsame] at hword
    constructor
    · intro _
      exact ⟨word, rfl, hsame⟩
    · intro hlarge
      omega
  | cons c digits ih =>
    obtain ⟨⟨hvalue, hlt⟩, hrest⟩ := List.forall_mem_cons.mp hdigits
    have hstep : (word.toNat * radix.toNat + digitValue c) * radix.toNat ^ digits.length +
        digitsValue radix.toNat digits = total := by
      rw [← htotal, digitsValue_cons, List.length_cons, Nat.pow_succ]
      ring
    have hfilter : (some (digitValue c)).filter (· < radix.toNat) = some (digitValue c) := by
      simp [hlt]
    simp only [readDigits, hvalue, hfilter]
    by_cases hover : 256 ^ literalBytes ≤ word.toNat * radix.toNat + digitValue c
    · -- The digits that are left cannot make the number smaller again.
      rw [if_pos ((overflows_iff (radix_lt radix) hlt).mpr hover)]
      have hpower : 1 ≤ radix.toNat ^ digits.length := Nat.one_le_pow _ _ (by omega)
      have hmore := Nat.mul_le_mul hover hpower
      refine ⟨fun hsmall => ?_, fun _ => rfl⟩
      omega
    · rw [if_neg fun hguard => hover ((overflows_iff (radix_lt radix) hlt).mp hguard)]
      apply ih hrest
      rw [toNat_take_digit (by omega), hstep]

/-- Digits that are all of the radix give the significant bytes of their value. -/
theorem radixBytes_eq {digits : Bytes} {radix : UInt32} (hne : digits ≠ [])
    (hdigits : ∀ c ∈ digits, valueOfDigit? c = some (digitValue c) ∧
      digitValue c < radix.toNat) :
    (digitsValue radix.toNat digits < 256 ^ literalBytes →
      radixBytes digits radix =
        .ok (significant (bigEndian literalBytes (digitsValue radix.toNat digits)))) ∧
    (256 ^ literalBytes ≤ digitsValue radix.toNat digits →
      radixBytes digits radix =
        .error (.immediateTooLarge (radixMark radix ++ digits) literalBytes)) := by
  have hzero : (0 : LiteralWord).toNat * radix.toNat ^ digits.length +
      digitsValue radix.toNat digits = digitsValue radix.toNat digits := by
    change 0 * _ + _ = _
    rw [Nat.zero_mul, Nat.zero_add]
  obtain ⟨hfits, hover⟩ := readDigits_eq hdigits hzero (radixMark radix ++ digits)
  rw [radixBytes, if_neg hne]
  constructor
  · intro hvalue
    obtain ⟨word, hread, hword⟩ := hfits hvalue
    rw [hread, ← hword]
    rfl
  · intro hvalue
    rw [hover hvalue]
    rfl

theorem hexDecode?_eq_some {digits : Bytes} (heven : digits.length % 2 = 0)
    (hdigits : ∀ c ∈ digits, valueOfDigit? c = some (digitValue c) ∧ digitValue c < 16) :
    ∃ bytes, hexDecode? digits = some bytes ∧ 2 * bytes.length = digits.length ∧
      bigEndianValue bytes = digitsValue 16 digits := by
  fun_induction hexDecode? digits with
  | case1 => exact ⟨[], rfl, rfl, rfl⟩
  | case2 => simp at heven
  | case3 high low rest h l hlow hhigh ih =>
    simp only [List.forall_mem_cons] at hdigits
    obtain ⟨⟨hhigh', hh⟩, ⟨hlow', hl⟩, hrest⟩ := hdigits
    cases hhigh.symm.trans hhigh'
    cases hlow.symm.trans hlow'
    simp only [List.length_cons] at heven
    obtain ⟨bytes, hdecode, hlength, hvalue⟩ := ih (by omega) hrest
    have hbyte : (UInt8.ofNat (16 * digitValue high + digitValue low)).toNat =
        16 * digitValue high + digitValue low := by
      rw [UInt8.toNat_ofNat']
      omega
    have hpower : 256 ^ bytes.length = 16 ^ rest.length := by
      rw [← hlength, Nat.pow_mul]
    refine ⟨UInt8.ofNat (16 * digitValue high + digitValue low) :: bytes, ?_, ?_, ?_⟩
    · rw [hdecode, Option.map_some]
    · simp only [List.length_cons]
      omega
    · rw [bigEndianValue_cons, hbyte, hpower, hvalue, digitsValue_cons, digitsValue_cons,
        List.length_cons, Nat.pow_succ]
      ring
  | case4 high low rest hnone =>
    simp only [List.forall_mem_cons] at hdigits
    obtain ⟨⟨hhigh, -⟩, ⟨hlow, -⟩, -⟩ := hdigits
    exact absurd hlow (hnone _ _ hhigh)

theorem Number.Valid.digit {number : Number} (h : number.Valid) :
    ∀ c ∈ number.digits, valueOfDigit? c = some (digitValue c) ∧
      digitValue c < number.base.radix.toNat := by
  intro c hc
  exact Base.accepts_digit (List.all_eq_true.mp h.digits c hc)

theorem Number.Valid.bytes_of_hex {number : Number} (h : number.Valid)
    (hbase : number.base = .hex) :
    ∃ raw, number.bytes = .ok raw ∧ 2 * raw.length = number.digits.length ∧
      bigEndianValue raw = number.value := by
  have hdigits := h.digit
  obtain ⟨base, digits⟩ := number
  cases hbase
  obtain ⟨raw, hdecode, hlength, hvalue⟩ := hexDecode?_eq_some (h.even rfl) hdigits
  have hok : ¬(digits = [] ∨ digits.length % 2 ≠ 0) := by
    simp [h.nonempty, h.even rfl]
  refine ⟨raw, ?_, hlength, hvalue⟩
  simp only [Number.bytes, hexBytes, if_neg hok, hdecode]

/-- A literal that is not hexadecimal is read as a number of at most sixteen bytes. -/
theorem Number.Valid.bytes_of_not_hex {number : Number} (h : number.Valid)
    (hbase : number.base ≠ .hex) :
    (number.value < 256 ^ literalBytes →
      ∃ raw, number.bytes = .ok raw ∧ bigEndianValue raw = number.value ∧
        ∀ n, 1 ≤ n → (raw.length ≤ n ↔ number.value < 256 ^ n)) ∧
    (256 ^ literalBytes ≤ number.value →
      number.bytes = .error (.immediateTooLarge number.text literalBytes)) := by
  have hbytes : number.bytes = radixBytes number.digits number.base.radix := by
    obtain ⟨base, digits⟩ := number
    cases base with
    | hex => exact absurd rfl hbase
    | binary | octal | decimal => rfl
  have hmark : radixMark number.base.radix = number.base.mark := by
    cases number.base <;> rfl
  obtain ⟨hfits, hover⟩ := radixBytes_eq h.nonempty h.digit
  rw [hbytes]
  constructor
  · intro hvalue
    have hsame : bigEndianValue (bigEndian literalBytes number.value) = number.value := by
      rw [bigEndianValue_bigEndian, Nat.mod_eq_of_lt hvalue]
    refine ⟨_, hfits hvalue, ?_, fun n hn => ?_⟩
    · rw [bigEndianValue_significant]
      exact hsame
    · change (significant (bigEndian literalBytes number.value)).length ≤ n ↔ _
      rw [significant_length_le hn, hsame]
  · intro hvalue
    rw [hover hvalue, hmark]
    rfl

theorem widen_eq_ok {raw : Bytes} {width : Nat} (h : raw.length ≤ width) (literal : Bytes) :
    widen raw width literal = .ok (bigEndian width (bigEndianValue raw)) := by
  have hbytes := eq_bigEndian (List.replicate (width - raw.length) 0 ++ raw)
  rw [bigEndianValue_zeros, List.length_append, List.length_replicate,
    Nat.sub_add_cancel h] at hbytes
  rw [widen, if_neg (by omega), hbytes]

/-- A hexadecimal literal fits by the number of its digits, any other by its value, for which there
are never more than sixteen bytes. -/
def Number.Fits (number : Number) (width : Nat) : Prop :=
  if number.base = .hex then number.digits.length ≤ 2 * width
  else number.value < 256 ^ min width literalBytes

private theorem lt_pow_min_iff {value first second : Nat} :
    value < 256 ^ min first second ↔ value < 256 ^ first ∧ value < 256 ^ second := by
  rcases Nat.le_total first second with hle | hle
  · have hpower : 256 ^ first ≤ 256 ^ second := Nat.pow_le_pow_right (by decide) hle
    rw [Nat.min_eq_left hle]
    omega
  · have hpower : 256 ^ second ≤ 256 ^ first := Nat.pow_le_pow_right (by decide) hle
    rw [Nat.min_eq_right hle]
    omega

private theorem immediate_of_hex {number : Number} {width : Nat} (h : number.Valid)
    (hbase : number.base = .hex) :
    (number.digits.length ≤ 2 * width →
      number.value < 256 ^ width ∧ number.immediate width = .ok (bigEndian width number.value)) ∧
    (¬ number.digits.length ≤ 2 * width →
      number.immediate width = .error (.immediateTooLarge number.text width)) := by
  obtain ⟨raw, hbytes, hlength, hvalue⟩ := h.bytes_of_hex hbase
  rw [Number.immediate, hbytes]
  constructor
  · intro hfits
    have hraw : raw.length ≤ width := by omega
    constructor
    · calc number.value = bigEndianValue raw := hvalue.symm
        _ < 256 ^ raw.length := bigEndianValue_lt raw
        _ ≤ 256 ^ width := Nat.pow_le_pow_right (by decide) hraw
    · simp only [widen_eq_ok hraw, hvalue]
  · intro hfits
    have hraw : raw.length > width := by omega
    simp only [widen, if_pos hraw]

private theorem immediate_of_not_hex {number : Number} {width : Nat} (h : number.Valid)
    (hbase : number.base ≠ .hex) (hwidth : 1 ≤ width) :
    (number.value < 256 ^ min width literalBytes →
      number.value < 256 ^ width ∧ number.immediate width = .ok (bigEndian width number.value)) ∧
    (¬ number.value < 256 ^ min width literalBytes →
      number.immediate width = .error (.immediateTooLarge number.text width)) := by
  obtain ⟨hsmall, hlarge⟩ := h.bytes_of_not_hex hbase
  rw [lt_pow_min_iff, Number.immediate]
  by_cases hword : number.value < 256 ^ literalBytes
  · obtain ⟨raw, hbytes, hvalue, hlength⟩ := hsmall hword
    rw [hbytes]
    constructor
    · rintro ⟨hfits, -⟩
      have hraw := (hlength width hwidth).mpr hfits
      simp only [widen_eq_ok hraw, hvalue, hfits, true_and]
    · intro hfits
      have hraw : raw.length > width := by
        by_contra hnot
        exact hfits ⟨(hlength width hwidth).mp (by omega), hword⟩
      simp only [widen, if_pos hraw]
  · rw [hlarge (by omega)]
    constructor
    · rintro ⟨-, hfits⟩
      exact absurd hfits hword
    · intro _
      -- The word's own fault names sixteen bytes, which is right for a push of sixteen.
      by_cases hsixteen : literalBytes = width
      · rw [← hsixteen]
        rfl
      · simp only [Fault.forWidth, ne_eq, hsixteen, not_false_eq_true, if_true]

/-- What is pushed of a literal is its value, and what does not fit is reported by the width of the
push, whether the word or the width was too small for it. -/
theorem Number.Valid.immediate_eq {number : Number} {width : Nat} (h : number.Valid)
    (hwidth : 1 ≤ width) :
    (number.Fits width →
      number.value < 256 ^ width ∧ number.immediate width = .ok (bigEndian width number.value)) ∧
    (¬ number.Fits width →
      number.immediate width = .error (.immediateTooLarge number.text width)) := by
  by_cases hbase : number.base = .hex
  · rw [Number.Fits, if_pos hbase]
    exact immediate_of_hex h hbase
  · rw [Number.Fits, if_neg hbase]
    exact immediate_of_not_hex h hbase hwidth

end EvmAssembly
