import EvmAssembly.Proofs.RadixReading

/-!
# Numbers as they are written

Sizes are written in decimal and offsets in hexadecimal. The digits are lower case, they read back
as the number, and there are no zeros in front but those that fill up to a least number of digits.
-/

namespace EvmAssembly

variable {radix : Nat}

/-- The text of a number in a radix up to sixteen, filled up with zeros to a least number of
digits. -/
structure IsWritten (radix least n : Nat) (text : Bytes) : Prop where
  digits : ∀ c ∈ text, c ∈ (utf8 "0123456789abcdef").take radix
  value : digitsValue radix text = n
  length : least ≤ text.length
  unfilled : least < text.length → text.head? ≠ some '0'.toUInt8

/-- The digits that a number is written with, as few as possible. -/
def writtenDigits (radix n : Nat) : Bytes := (Nat.toDigits radix n).map Char.toUInt8

theorem digitChar_digit {d : Nat} (hd : d < radix) (hradix : radix ≤ 16) :
    d.digitChar.toUInt8 ∈ (utf8 "0123456789abcdef").take radix ∧
      digitValue d.digitChar.toUInt8 = d := by
  have hall : ∀ d < 16, (utf8 "0123456789abcdef")[d]? = some d.digitChar.toUInt8 ∧
      digitValue d.digitChar.toUInt8 = d := by
    decide +kernel
  obtain ⟨hdigit, hvalue⟩ := hall d (by omega)
  refine ⟨List.mem_iff_getElem?.mpr ⟨d, ?_⟩, hvalue⟩
  rw [List.getElem?_take_of_lt hd, hdigit]

theorem writtenDigits_of_lt {d : Nat} (hd : d < radix) :
    writtenDigits radix d = [d.digitChar.toUInt8] := by
  rw [writtenDigits, Nat.toDigits_of_lt_base hd]
  rfl

theorem writtenDigits_of_ge {n : Nat} (hradix : 1 < radix) (hn : radix ≤ n) :
    writtenDigits radix n =
      writtenDigits radix (n / radix) ++ [(n % radix).digitChar.toUInt8] := by
  rw [writtenDigits, Nat.toDigits_eq_if hradix, if_neg (by omega), List.map_append]
  rfl

/-- Numbers are built up from those of one digit, a digit at a time. -/
@[elab_as_elim]
theorem digitInduction {motive : Nat → Prop} (hradix : 1 < radix)
    (one : ∀ n, n < radix → motive n) (more : ∀ n, radix ≤ n → motive (n / radix) → motive n)
    (n : Nat) : motive n := by
  induction n using Nat.strongRecOn with
  | ind n ih =>
    by_cases hlt : n < radix
    · exact one n hlt
    · exact more n (by omega) (ih (n / radix) (Nat.div_lt_self (by omega) hradix))

theorem writtenDigits_head {n : Nat} (hlow : 1 < radix) (hhigh : radix ≤ 16) (hn : n ≠ 0) :
    ∃ c rest, writtenDigits radix n = c :: rest ∧ c ≠ '0'.toUInt8 := by
  have hdigit : ∀ d < 16, d ≠ 0 → d.digitChar.toUInt8 ≠ '0'.toUInt8 := by decide
  induction n using digitInduction hlow with
  | one n hlt => exact ⟨_, [], writtenDigits_of_lt hlt, hdigit n (by omega) hn⟩
  | more n hge ih =>
    have hpositive : 0 < n / radix := Nat.div_pos hge (by omega)
    obtain ⟨c, rest, hdigits, hc⟩ := ih (by omega)
    rw [writtenDigits_of_ge hlow hge, hdigits]
    exact ⟨c, _, rfl, hc⟩

/-- A number is written with as few digits as possible. -/
theorem writtenDigits_isWritten (hlow : 1 < radix) (hhigh : radix ≤ 16) (n : Nat) :
    IsWritten radix 1 n (writtenDigits radix n) where
  digits := by
    induction n using digitInduction hlow with
    | one n hlt =>
      rw [writtenDigits_of_lt hlt]
      simpa using (digitChar_digit hlt hhigh).1
    | more n hge ih =>
      have hlast := (digitChar_digit (Nat.mod_lt n (by omega)) hhigh).1
      rw [writtenDigits_of_ge hlow hge, List.forall_mem_append]
      exact ⟨ih, by simpa using hlast⟩
  value := by
    induction n using digitInduction hlow with
    | one n hlt =>
      rw [writtenDigits_of_lt hlt, digitsValue_cons, (digitChar_digit hlt hhigh).2]
      simp [digitsValue, placeValue]
    | more n hge ih =>
      have hlast := (digitChar_digit (Nat.mod_lt n (by omega)) hhigh).2
      rw [writtenDigits_of_ge hlow hge, digitsValue_concat, ih, hlast, Nat.div_add_mod']
  length := by
    rw [writtenDigits, List.length_map]
    exact Nat.length_toDigits_pos
  unfilled := by
    intro hlength
    have hn : n ≠ 0 := by
      rintro rfl
      rw [writtenDigits_of_lt (by omega)] at hlength
      exact absurd hlength (by simp)
    obtain ⟨c, rest, hdigits, hc⟩ := writtenDigits_head hlow hhigh hn
    rw [hdigits]
    exact fun hzero => hc (Option.some.inj hzero)

theorem decimal_isWritten (n : Nat) : IsWritten 10 1 n (decimal n) :=
  writtenDigits_isWritten (by decide) (by decide) n

theorem digitsValue_zeros (radix count : Nat) (digits : Bytes) :
    digitsValue radix (List.replicate count '0'.toUInt8 ++ digits) = digitsValue radix digits := by
  have hzero : digitValue '0'.toUInt8 = 0 := by decide
  induction count with
  | zero => rfl
  | succ count ih =>
    rw [List.replicate_succ, List.cons_append, digitsValue_cons, ih, hzero, Nat.zero_mul,
      Nat.zero_add]

theorem hexNumber_isWritten {least : Nat} (hleast : 1 ≤ least) (n : Nat) :
    IsWritten 16 least n (hexNumber least n) := by
  have hwritten := @writtenDigits_isWritten 16 (by decide) (by decide) n
  have htext : hexNumber least n =
      List.replicate (least - (writtenDigits 16 n).length) '0'.toUInt8 ++ writtenDigits 16 n := rfl
  rw [htext]
  constructor
  · rw [List.forall_mem_append]
    refine ⟨?_, hwritten.digits⟩
    intro c hc
    rw [List.eq_of_mem_replicate hc]
    decide
  · rw [digitsValue_zeros, hwritten.value]
  · rw [List.length_append, List.length_replicate]
    omega
  · intro hlong
    rw [List.length_append, List.length_replicate] at hlong
    -- Where there are more digits than asked for, none of them is filled in.
    have hfilled : least - (writtenDigits 16 n).length = 0 := by omega
    rw [hfilled]
    exact hwritten.unfilled (by omega)

end EvmAssembly
