import EvmAssembly.NumericLiteral

/-!
# Hexadecimal text and its bytes

What is written as hexadecimal digits is read back as the same bytes. Numbers are written with
digits only.
-/

namespace EvmAssembly

theorem valueOfDigit?_hexDigit {n : Nat} (h : n < 16) : valueOfDigit? (hexDigit n) = some n := by
  have hall : ∀ n < 16, valueOfDigit? (hexDigit n) = some n := by decide
  exact hall n h

theorem isHexadecimalDigit_hexDigit {n : Nat} (h : n < 16) :
    isHexadecimalDigit (hexDigit n) = true := by
  have hall : ∀ n < 16, isHexadecimalDigit (hexDigit n) = true := by decide
  exact hall n h

private theorem nibbles_lt (b : UInt8) : b.toNat / 16 < 16 ∧ b.toNat % 16 < 16 := by
  have hb := b.toNat_lt
  omega

theorem hexText_length (bytes : Bytes) : (hexText bytes).length = 2 * bytes.length := by
  induction bytes with
  | nil => rfl
  | cons b bytes ih =>
    simp only [hexText, List.length_cons, ih]
    omega

theorem hexText_all_digits (bytes : Bytes) : (hexText bytes).all isHexadecimalDigit = true := by
  induction bytes with
  | nil => rfl
  | cons b bytes ih =>
    obtain ⟨hhigh, hlow⟩ := nibbles_lt b
    simp [hexText, isHexadecimalDigit_hexDigit hhigh, isHexadecimalDigit_hexDigit hlow, ih]

theorem hexDecode?_hexText (bytes : Bytes) : hexDecode? (hexText bytes) = some bytes := by
  induction bytes with
  | nil => rfl
  | cons b bytes ih =>
    obtain ⟨hhigh, hlow⟩ := nibbles_lt b
    have hbyte : UInt8.ofNat (16 * (b.toNat / 16) + b.toNat % 16) = b := by
      rw [Nat.div_add_mod, UInt8.ofNat_toNat]
    simp [hexText, hexDecode?, valueOfDigit?_hexDigit hhigh, valueOfDigit?_hexDigit hlow, ih, hbyte]

/-- Up to base sixteen, numbers are written with hexadecimal digits. -/
theorem toDigits_all_digits {base : Nat} (hlow : 1 < base) (hhigh : base ≤ 16) (n : Nat) :
    ((Nat.toDigits base n).map Char.toUInt8).all isHexadecimalDigit = true := by
  have hdigit : ∀ d < 16, isHexadecimalDigit (Nat.digitChar d).toUInt8 = true := by decide
  induction n using Nat.strongRecOn with
  | ind n ih =>
    rw [Nat.toDigits_eq_if hlow]
    split
    · simp [hdigit n (by omega)]
    · have hless : n / base < n := Nat.div_lt_self (by omega) hlow
      have hlast : n % base < 16 := Nat.lt_of_lt_of_le (Nat.mod_lt _ (by omega)) hhigh
      rw [List.map_append, List.all_append, ih _ hless]
      simp [hdigit _ hlast]

theorem decimal_all_digits (n : Nat) : (decimal n).all isHexadecimalDigit = true :=
  toDigits_all_digits (by decide) (by decide) n

theorem hexNumber_all_digits (digits n : Nat) :
    (hexNumber digits n).all isHexadecimalDigit = true := by
  have hzero : isHexadecimalDigit '0'.toUInt8 = true := by decide
  have hnumber := @toDigits_all_digits 16 (by decide) (by decide) n
  rw [hexNumber, List.all_append, hnumber]
  simp [hzero]

end EvmAssembly
