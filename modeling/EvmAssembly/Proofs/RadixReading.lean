import Mathlib.Order.Bounds.Defs
import EvmAssembly.Proofs.LiteralValue

/-!
# Reading digits in any radix

Digits are read from the left into a word of sixteen bytes. The first position that holds no digit
of the radix, or that takes the value out of the word, decides the fault. Where there is none, the
bytes are the shortest that the value has.
-/

namespace EvmAssembly

variable {radix : UInt32} {digits literal : Bytes} {word : LiteralWord} {c : UInt8} {i : Nat}

/-- One of the sixteen digits, in either case, whose value is below the radix. -/
def IsDigitOf (radix : UInt32) (c : UInt8) : Prop :=
  isHexadecimalDigit c = true ∧ digitValue c < radix.toNat

instance (radix : UInt32) (c : UInt8) : Decidable (IsDigitOf radix c) :=
  inferInstanceAs (Decidable (_ ∧ _))

theorem valueOfDigit?_eq (c : UInt8) :
    valueOfDigit? c = if isHexadecimalDigit c = true then some (digitValue c) else none := by
  split
  · rename_i hdigit
    exact (@Base.accepts_digit .hex c hdigit).1
  · rename_i hdigit
    simp only [isHexadecimalDigit, Bool.or_eq_true, not_or] at hdigit
    obtain ⟨⟨hdecimal, hlower⟩, hupper⟩ := hdigit
    rw [valueOfDigit?, if_neg hdecimal, if_neg hlower, if_neg hupper]

theorem digit_eq_some (h : IsDigitOf radix c) :
    (valueOfDigit? c).filter (· < radix.toNat) = some (digitValue c) := by
  rw [valueOfDigit?_eq, if_pos h.1]
  simp [h.2]

theorem digit_eq_none (h : ¬ IsDigitOf radix c) :
    (valueOfDigit? c).filter (· < radix.toNat) = none := by
  rw [valueOfDigit?_eq]
  split
  · rename_i hdigit
    have hlarge : ¬ digitValue c < radix.toNat := fun hlt => h ⟨hdigit, hlt⟩
    rw [Option.filter_some_neg (by simpa using hlarge)]
  · rfl

theorem digitsValue_concat (radix : Nat) (digits : Bytes) (c : UInt8) :
    digitsValue radix (digits ++ [c]) = digitsValue radix digits * radix + digitValue c := by
  rw [digitsValue, List.map_append, List.map_singleton, placeValue_concat, digitsValue,
    Nat.mul_comm]

/-- The digits up to this position cannot be read: it is no digit of the radix that stands there, or
with it the value reaches 2 ^ 128. -/
def Offends (radix : UInt32) (digits : Bytes) (i : Nat) : Prop :=
  ∃ h : i < digits.length, ¬ IsDigitOf radix digits[i] ∨
    2 ^ 128 ≤ digitsValue radix.toNat (digits.take (i + 1))

instance (radix : UInt32) (digits : Bytes) (i : Nat) : Decidable (Offends radix digits i) :=
  inferInstanceAs (Decidable (∃ _ : i < digits.length, _))

/-- All that stands there are digits of the radix, and their value is below 2 ^ 128. -/
def Readable (radix : UInt32) (digits : Bytes) : Prop :=
  (∀ c ∈ digits, IsDigitOf radix c) ∧ digitsValue radix.toNat digits < 2 ^ 128

instance (radix : UInt32) (digits : Bytes) : Decidable (Readable radix digits) :=
  inferInstanceAs (Decidable (_ ∧ _))

theorem readable_before (hi : i ≤ digits.length) (h : ∀ j < i, ¬ Offends radix digits j) :
    Readable radix (digits.take i) := by
  constructor
  · intro c hc
    obtain ⟨j, hj, rfl⟩ := List.mem_take_iff_getElem.mp hc
    have hlt : j < i ∧ j < digits.length := by omega
    by_contra hdigit
    exact h j hlt.1 ⟨hlt.2, .inl hdigit⟩
  · cases i with
    | zero =>
      rw [List.take_zero]
      exact Nat.two_pow_pos 128
    | succ j =>
      by_contra hvalue
      exact h j (Nat.lt_succ_self j) ⟨hi, .inr (by omega)⟩

theorem exists_first_offence (h : ¬ Readable radix digits) :
    ∃ i, IsLeast {i | Offends radix digits i} i := by
  classical
  have hsome : ∃ i, Offends radix digits i := by
    by_contra hnone
    have hall : Readable radix (digits.take digits.length) :=
      readable_before (le_refl digits.length) fun j _ hoffends => hnone ⟨j, hoffends⟩
    rw [List.take_length] at hall
    exact h hall
  exact ⟨Nat.find hsome, Nat.find_spec hsome, fun j hj => Nat.find_min' hsome hj⟩

theorem word_size : 256 ^ literalBytes = 2 ^ 128 := by decide

theorem Readable.digit (h : Readable radix digits) :
    ∀ c ∈ digits, valueOfDigit? c = some (digitValue c) ∧ digitValue c < radix.toNat := by
  intro c hc
  obtain ⟨hdigit, hlt⟩ := h.1 c hc
  rw [valueOfDigit?_eq, if_pos hdigit]
  exact ⟨rfl, hlt⟩

theorem readDigits_append (literal : Bytes) (radix : UInt32) (word : LiteralWord)
    (before rest : Bytes) :
    readDigits literal radix word (before ++ rest) =
      (readDigits literal radix word before >>= fun word =>
        readDigits literal radix word rest) := by
  induction before generalizing word with
  | nil => rfl
  | cons c before ih =>
    simp only [List.cons_append, readDigits]
    split
    · rfl
    · split
      · rfl
      · exact ih _

/-- Readable digits lead the reader to the word of their value, whatever stands behind them. -/
theorem Readable.readDigits_append (h : Readable radix digits) (literal rest : Bytes) :
    ∃ word : LiteralWord, word.toNat = digitsValue radix.toNat digits ∧
      readDigits literal radix 0 (digits ++ rest) = readDigits literal radix word rest := by
  have hzero : (0 : LiteralWord).toNat * radix.toNat ^ digits.length +
      digitsValue radix.toNat digits = digitsValue radix.toNat digits := by
    change 0 * _ + _ = _
    rw [Nat.zero_mul, Nat.zero_add]
  obtain ⟨word, hread, hword⟩ :=
    (readDigits_eq h.digit hzero literal).1 (by rw [word_size]; exact h.2)
  refine ⟨word, hword, ?_⟩
  rw [EvmAssembly.readDigits_append, hread]
  rfl

theorem readDigits_of_not_digit (h : ¬ IsDigitOf radix c) (rest : Bytes) :
    readDigits literal radix word (c :: rest) =
      .error (.lexical ("invalid digit '" ++ [c] ++ "' in '" ++ literal ++ "'")) := by
  simp only [readDigits, digit_eq_none h]

theorem readDigits_of_overflow (h : IsDigitOf radix c)
    (hlarge : 2 ^ 128 ≤ word.toNat * radix.toNat + digitValue c) (rest : Bytes) :
    readDigits literal radix word (c :: rest) =
      .error (.immediateTooLarge literal literalBytes) := by
  have hguard := (overflows_iff (radix_lt radix) h.2).mpr (by rw [word_size]; exact hlarge)
  simp only [readDigits, digit_eq_some h, if_pos hguard]

/-- The first offence decides the fault: a byte that is no digit is named in it, even if the value
has just reached the end of the word. -/
theorem readDigits_first_offence (h : IsLeast {i | Offends radix digits i} i)
    (hc : digits[i]? = some c) (literal : Bytes) :
    readDigits literal radix 0 digits =
      .error (if IsDigitOf radix c then .immediateTooLarge literal literalBytes
        else .lexical ("invalid digit '" ++ [c] ++ "' in '" ++ literal ++ "'")) := by
  obtain ⟨⟨hi, hoffends⟩, hleast⟩ := h
  obtain rfl : digits[i] = c := Option.some.inj ((List.getElem?_eq_getElem hi).symm.trans hc)
  have hbefore : Readable radix (digits.take i) :=
    readable_before hi.le fun j hj hoffends => absurd (hleast hoffends) (Nat.not_le.mpr hj)
  obtain ⟨word, hword, hread⟩ := hbefore.readDigits_append literal (digits.drop i)
  rw [List.take_append_drop, List.drop_eq_getElem_cons hi] at hread
  rw [hread]
  split
  · rename_i hdigit
    have hlarge := hoffends.resolve_left (not_not_intro hdigit)
    rw [List.take_succ_eq_append_getElem hi, digitsValue_concat, ← hword] at hlarge
    exact readDigits_of_overflow hdigit hlarge _
  · rename_i hdigit
    exact readDigits_of_not_digit hdigit _

/-- The big-endian bytes of a number of which none can be left out, but for one byte at least. -/
structure IsShortest (n : Nat) (bytes : Bytes) : Prop where
  value : bigEndianValue bytes = n
  nonempty : 1 ≤ bytes.length
  leading : n ≠ 0 → bytes.head? ≠ some 0
  zero : n = 0 → bytes = [0]
  minimal : ∀ other : Bytes, other ≠ [] → bigEndianValue other = n → bytes.length ≤ other.length

private theorem significant_ne_nil {bytes : Bytes} (h : bytes ≠ []) : significant bytes ≠ [] := by
  fun_induction significant bytes with
  | case1 => exact h
  | case2 => exact h
  | case3 next rest ih => exact ih (List.cons_ne_nil _ _)
  | case4 => exact h

private theorem significant_head {bytes : Bytes} (h : bigEndianValue bytes ≠ 0) :
    (significant bytes).head? ≠ some 0 := by
  fun_induction significant bytes with
  | case1 => exact absurd rfl h
  | case2 b =>
    intro hzero
    cases hzero
    exact h rfl
  | case3 next rest ih =>
    apply ih
    rwa [bigEndianValue_cons, UInt8.toNat_zero, Nat.zero_mul, Nat.zero_add] at h
  | case4 b next rest hb =>
    intro hzero
    exact hb (Option.some.inj hzero)

theorem significant_isShortest {bytes : Bytes} (h : bytes ≠ []) :
    IsShortest (bigEndianValue bytes) (significant bytes) where
  value := bigEndianValue_significant bytes
  nonempty := List.length_pos_iff.mpr (significant_ne_nil h)
  leading := significant_head
  zero := by
    intro hzero
    have hlength : (significant bytes).length ≤ 1 :=
      (significant_length_le (le_refl 1)).mpr (by omega)
    obtain ⟨b, hb⟩ := List.length_eq_one_iff.mp
      (hlength.antisymm (List.length_pos_iff.mpr (significant_ne_nil h)))
    have hvalue := bigEndianValue_significant bytes
    rw [hb, hzero] at hvalue
    have hbyte : b = 0 := by simpa [bigEndianValue, ← UInt8.toNat_inj] using hvalue
    rw [hb, hbyte]
  minimal := by
    intro other hne hother
    apply (significant_length_le (List.length_pos_iff.mpr hne)).mpr
    rw [← hother]
    exact bigEndianValue_lt other

/-- A word, if it stands for the number that it should. -/
def exactly? (n : Int) (word : LiteralWord) : Option LiteralWord :=
  if (word.toNat : Int) = n then some word else none

def wordOf? (n : Nat) : Option LiteralWord := exactly? n (BitVec.ofNat _ n)

def sum? (first second : LiteralWord) : Option LiteralWord :=
  exactly? (first.toNat + second.toNat) (first + second)

def difference? (first second : LiteralWord) : Option LiteralWord :=
  exactly? (first.toNat - second.toNat) (first - second)

def product? (first second : LiteralWord) : Option LiteralWord :=
  exactly? (first.toNat * second.toNat) (first * second)

def quotient? (first second : LiteralWord) : Option LiteralWord :=
  if second.toNat = 0 then none else exactly? (first.toNat / second.toNat) (first / second)

/-- Takes a digit on, or finds that the word is too small for it. -/
def takeDigit? (value base digit : LiteralWord) : Option (Option LiteralWord) := do
  let room ← difference? (BitVec.allOnes _) digit
  let limit ← quotient? room base
  if value > limit then some none
  else do
    let shifted ← product? value base
    let next ← sum? shifted digit
    some (some next)

/-- Reads digits as `readDigits` does, but gives up where an operation on words does not give the
number that it gives without a bound, and before a division by zero. -/
def readDigits? (literal : Bytes) (radix : UInt32) :
    LiteralWord → Bytes → Option (Except Fault LiteralWord)
  | value, [] => some (.ok value)
  | value, c :: digits =>
    match (valueOfDigit? c).filter (· < radix.toNat) with
    | none => some (.error (.lexical ("invalid digit '" ++ [c] ++ "' in '" ++ literal ++ "'")))
    | some d => do
      let base ← wordOf? radix.toNat
      let digit ← wordOf? d
      match ← takeDigit? value base digit with
      | none => some (.error (.immediateTooLarge literal literalBytes))
      | some next => readDigits? literal radix next digits

private theorem exactly?_eq_some {n : Int} {word : LiteralWord} (h : (word.toNat : Int) = n) :
    exactly? n word = some word := if_pos h

private theorem wordOf?_eq_some {n : Nat} (h : n < 256 ^ literalBytes) :
    wordOf? n = some (BitVec.ofNat _ n) := by
  apply exactly?_eq_some
  rw [toNat_literalWord h]

private theorem room?_eq_some (word : LiteralWord) :
    difference? (BitVec.allOnes _) word = some (BitVec.allOnes _ - word) := by
  apply exactly?_eq_some
  have hle : word.toNat ≤ (BitVec.allOnes (8 * literalBytes)).toNat := by
    rw [BitVec.toNat_allOnes]
    exact Nat.le_sub_one_of_lt word.isLt
  rw [BitVec.toNat_sub_of_le (BitVec.le_def.mpr hle), Nat.cast_sub hle]

private theorem quotient?_eq_some {word base : LiteralWord} (h : base.toNat ≠ 0) :
    quotient? word base = some (word / base) := by
  rw [quotient?, if_neg h]
  apply exactly?_eq_some
  rw [BitVec.toNat_udiv, Int.natCast_ediv]

private theorem product?_eq_some {word base : LiteralWord}
    (h : word.toNat * base.toNat < 256 ^ literalBytes) :
    product? word base = some (word * base) := by
  apply exactly?_eq_some
  rw [← literal_size] at h
  rw [BitVec.toNat_mul_of_lt h, Nat.cast_mul]

private theorem sum?_eq_some {first second : LiteralWord}
    (h : first.toNat + second.toNat < 256 ^ literalBytes) :
    sum? first second = some (first + second) := by
  apply exactly?_eq_some
  rw [← literal_size] at h
  rw [BitVec.toNat_add_of_lt h, Nat.cast_add]

/-- The guard keeps every operation exact, from any word on. -/
theorem takeDigit?_eq {base digit : LiteralWord} (hzero : base.toNat ≠ 0)
    (hfits : ¬ word > (BitVec.allOnes _ - digit) / base →
      word.toNat * base.toNat + digit.toNat < 256 ^ literalBytes) :
    takeDigit? word base digit = some (if word > (BitVec.allOnes _ - digit) / base then none
      else some (word * base + digit)) := by
  have hroom := room?_eq_some digit
  generalize BitVec.allOnes (8 * literalBytes) - digit = room at hroom hfits ⊢
  rw [takeDigit?, hroom, Option.bind_eq_bind, Option.bind_some, quotient?_eq_some hzero,
    Option.bind_some]
  by_cases hguard : word > room / base
  · rw [if_pos hguard, if_pos hguard]
  · have hlt := hfits hguard
    have hproduct : (word * base).toNat = word.toNat * base.toNat := by
      rw [BitVec.toNat_mul_of_lt]
      rw [literal_size]
      omega
    rw [if_neg hguard, if_neg hguard, product?_eq_some (by omega), Option.bind_some,
      sum?_eq_some (by rwa [hproduct]), Option.bind_some]

theorem readDigits?_eq (literal : Bytes) (radix : UInt32) (word : LiteralWord) (digits : Bytes) :
    readDigits? literal radix word digits = some (readDigits literal radix word digits) := by
  induction digits generalizing word with
  | nil => rfl
  | cons c digits ih =>
    by_cases hdigit : IsDigitOf radix c
    · have hradix := radix_lt radix
      have hvalue := hdigit.2.trans hradix
      have hguard := @overflows_iff word _ _ hradix hdigit.2
      have hzero : (BitVec.ofNat (8 * literalBytes) radix.toNat).toNat ≠ 0 := by
        rw [toNat_literalWord hradix]
        exact Nat.ne_zero_of_lt hdigit.2
      have hfits : ¬ word > (BitVec.allOnes _ - BitVec.ofNat _ (digitValue c)) /
          BitVec.ofNat _ radix.toNat →
          word.toNat * (BitVec.ofNat (8 * literalBytes) radix.toNat).toNat +
            (BitVec.ofNat (8 * literalBytes) (digitValue c)).toNat < 256 ^ literalBytes := by
        intro hnot
        rw [toNat_literalWord hradix, toNat_literalWord hvalue]
        exact Nat.not_le.mp fun hlarge => hnot (hguard.mpr hlarge)
      simp only [readDigits?, readDigits, digit_eq_some hdigit]
      rw [wordOf?_eq_some hradix, wordOf?_eq_some hvalue, Option.bind_eq_bind, Option.bind_some,
        Option.bind_some, takeDigit?_eq hzero hfits, Option.bind_eq_bind, Option.bind_some]
      by_cases hover : word > (BitVec.allOnes _ - BitVec.ofNat _ (digitValue c)) /
          BitVec.ofNat _ radix.toNat
      · rw [if_pos hover, if_pos hover]
      · rw [if_neg hover, if_neg hover]
        exact ih _
    · simp only [readDigits?, readDigits, digit_eq_none hdigit]

end EvmAssembly
