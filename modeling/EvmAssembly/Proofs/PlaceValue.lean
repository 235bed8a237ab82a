import Mathlib.Data.List.Induction
import Mathlib.Data.Nat.Digits.Defs
import EvmAssembly.NumericLiteral

/-!
# Numbers and their digits

The value of digits, the most significant first, and of big-endian bytes. The significant bytes of a
number are as many as its size asks for.
-/

namespace EvmAssembly

/-- The number with these digits in a radix, the most significant first. -/
def placeValue (radix : Nat) (values : List Nat) : Nat := Nat.ofDigits radix values.reverse

theorem placeValue_cons (radix d : Nat) (values : List Nat) :
    placeValue radix (d :: values) = d * radix ^ values.length + placeValue radix values := by
  rw [placeValue, placeValue, Nat.ofDigits_reverse_cons]
  ring

theorem placeValue_concat (radix d : Nat) (values : List Nat) :
    placeValue radix (values ++ [d]) = radix * placeValue radix values + d := by
  rw [placeValue, placeValue, List.reverse_append, List.reverse_singleton, List.singleton_append,
    Nat.ofDigits_cons]
  ring

theorem bigEndianValue_concat (bytes : Bytes) (b : UInt8) :
    bigEndianValue (bytes ++ [b]) = 256 * bigEndianValue bytes + b.toNat := by
  simp [bigEndianValue]

theorem bigEndianValue_eq_placeValue (bytes : Bytes) :
    bigEndianValue bytes = placeValue 256 (bytes.map UInt8.toNat) := by
  induction bytes using List.reverseRecOn with
  | nil => rfl
  | append_singleton bytes b ih =>
    rw [bigEndianValue_concat, List.map_append, List.map_singleton, placeValue_concat, ih]

theorem bigEndianValue_cons (b : UInt8) (bytes : Bytes) :
    bigEndianValue (b :: bytes) = b.toNat * 256 ^ bytes.length + bigEndianValue bytes := by
  rw [bigEndianValue_eq_placeValue, List.map_cons, placeValue_cons, List.length_map,
    bigEndianValue_eq_placeValue]

theorem bigEndianValue_lt (bytes : Bytes) : bigEndianValue bytes < 256 ^ bytes.length := by
  induction bytes with
  | nil => decide
  | cons b bytes ih =>
    have hb := b.toNat_lt
    rw [bigEndianValue_cons, List.length_cons, Nat.pow_succ]
    nlinarith

theorem bigEndianValue_zeros (count : Nat) (bytes : Bytes) :
    bigEndianValue (List.replicate count 0 ++ bytes) = bigEndianValue bytes := by
  induction count with
  | zero => rfl
  | succ count ih =>
    rw [List.replicate_succ, List.cons_append, bigEndianValue_cons, ih]
    simp

theorem bigEndian_length (count n : Nat) : (bigEndian count n).length = count := by
  induction count generalizing n with
  | zero => rfl
  | succ count ih => simp [bigEndian, ih]

theorem bigEndianValue_bigEndian (count n : Nat) :
    bigEndianValue (bigEndian count n) = n % 256 ^ count := by
  induction count generalizing n with
  | zero => simp [bigEndian, bigEndianValue, Nat.mod_one]
  | succ count ih =>
    have hsplit : n % 256 ^ (count + 1) = n % 256 + 256 * (n / 256 % 256 ^ count) := by
      rw [Nat.pow_succ', Nat.mod_mul]
    rw [bigEndian, bigEndianValue_concat, ih, UInt8.toNat_ofNat', hsplit]
    omega

/-- Bytes are determined by their number and their value. -/
theorem eq_bigEndian (bytes : Bytes) : bytes = bigEndian bytes.length (bigEndianValue bytes) := by
  induction bytes using List.reverseRecOn with
  | nil => rfl
  | append_singleton bytes b ih =>
    have hb := b.toNat_lt
    have hquotient : (256 * bigEndianValue bytes + b.toNat) / 256 = bigEndianValue bytes := by omega
    have hlast : UInt8.ofNat (256 * bigEndianValue bytes + b.toNat) = b := by
      apply UInt8.toNat_inj.mp
      rw [UInt8.toNat_ofNat']
      omega
    rw [List.length_append, List.length_singleton, bigEndianValue_concat, bigEndian, hquotient,
      hlast, ← ih]

theorem bigEndianValue_significant (bytes : Bytes) :
    bigEndianValue (significant bytes) = bigEndianValue bytes := by
  fun_induction significant bytes with
  | case1 => rfl
  | case2 => rfl
  | case3 next rest ih =>
    rw [ih, bigEndianValue_cons 0]
    simp
  | case4 => rfl

/-- The significant bytes are no more than the value needs. -/
theorem significant_length_le {bytes : Bytes} {n : Nat} (hn : 1 ≤ n) :
    (significant bytes).length ≤ n ↔ bigEndianValue bytes < 256 ^ n := by
  constructor
  · intro h
    rw [← bigEndianValue_significant]
    calc bigEndianValue (significant bytes)
      _ < 256 ^ (significant bytes).length := bigEndianValue_lt _
      _ ≤ 256 ^ n := Nat.pow_le_pow_right (by decide) h
  · intro h
    fun_induction significant bytes with
    | case1 => exact Nat.zero_le n
    | case2 => exact hn
    | case3 next rest ih =>
      apply ih
      rw [bigEndianValue_cons 0] at h
      simpa using h
    | case4 b next rest hb =>
      -- A leading byte that is not zero is worth more than all values of fewer bytes.
      have hpositive : 1 ≤ b.toNat := by
        have hne : b.toNat ≠ 0 := fun hzero => hb (UInt8.toNat_inj.mp hzero)
        omega
      have hleading : 256 ^ (next :: rest).length ≤ bigEndianValue (b :: next :: rest) := by
        rw [bigEndianValue_cons]
        exact Nat.le_add_right_of_le (Nat.le_mul_of_pos_left _ hpositive)
      have hpow : 256 ^ (next :: rest).length < 256 ^ n := by omega
      exact (Nat.pow_lt_pow_iff_right (by decide)).mp hpow

end EvmAssembly
