import EvmAssembly.Proofs.RadixReading

/-!
# Two readers of hexadecimal digits

Hexadecimal digits can be read by pairs, a byte each, or as a number in radix sixteen. Both give the
same value. The first reader keeps the zeros in front and has no limit, the second gives the bytes
without them, as long as the value is below 2 ^ 128.
-/

namespace EvmAssembly

variable {digits bytes raw : Bytes} {c : UInt8}

theorem valueOfDigit?_eq_none (h : isHexadecimalDigit c = false) : valueOfDigit? c = none := by
  rw [valueOfDigit?_eq, if_neg (Bool.eq_false_iff.mp h)]

theorem hexDecode?_eq_none (hc : isHexadecimalDigit c = false) (hmem : c ∈ digits) :
    hexDecode? digits = none := by
  fun_induction hexDecode? digits with
  | case1 => cases hmem
  | case2 => rfl
  | case3 high low rest h l hlow hhigh ih =>
    rcases List.mem_cons.mp hmem with rfl | hmem
    · cases (valueOfDigit?_eq_none hc).symm.trans hhigh
    · rcases List.mem_cons.mp hmem with rfl | hmem
      · cases (valueOfDigit?_eq_none hc).symm.trans hlow
      · rw [ih hmem]
        rfl
  | case4 => rfl

/-- Bytes are spelled out by an even number of digits, at least two, and by nothing else. -/
theorem hexBytes_eq_error
    (h : digits = [] ∨ digits.length % 2 = 1 ∨ ∃ c ∈ digits, isHexadecimalDigit c = false) :
    ∃ detail, hexBytes digits = .error (.lexical detail) := by
  rw [hexBytes]
  split
  · exact ⟨_, rfl⟩
  · rename_i hshape
    rcases h with hempty | hodd | ⟨c, hmem, hc⟩
    · exact absurd (.inl hempty) hshape
    · exact absurd (.inr (by omega)) hshape
    · rw [hexDecode?_eq_none hc hmem]
      exact ⟨_, rfl⟩

/-- What is left of bytes without the zeros in front, but for one byte at least. -/
structure IsTrimmed (bytes trimmed : Bytes) : Prop where
  zeros : ∃ count, bytes = List.replicate count 0 ++ trimmed
  nonempty : trimmed ≠ []
  leading : trimmed.head? = some 0 → trimmed.length = 1

theorem IsShortest.head_zero {n : Nat} (h : IsShortest n raw) (hzero : raw.head? = some 0) :
    raw.length = 1 := by
  by_cases hn : n = 0
  · rw [h.zero hn]
    rfl
  · exact absurd hzero (h.leading hn)

/-- The shortest bytes of a value are brought to any longer ones of the same value. -/
theorem IsShortest.widen_eq (h : IsShortest (bigEndianValue bytes) raw) (hne : bytes ≠ [])
    (literal : Bytes) : widen raw bytes.length literal = .ok bytes := by
  rw [widen_eq_ok (h.minimal bytes hne rfl), h.value, ← eq_bigEndian]

theorem IsShortest.isTrimmed (h : IsShortest (bigEndianValue bytes) raw) (hne : bytes ≠ []) :
    IsTrimmed bytes raw where
  zeros := by
    have hlength : ¬ raw.length > bytes.length := Nat.not_lt.mpr (h.minimal bytes hne rfl)
    have hwiden := h.widen_eq hne []
    rw [widen, if_neg hlength] at hwiden
    exact ⟨_, (Except.ok.inj hwiden).symm⟩
  nonempty := List.length_pos_iff.mp h.nonempty
  leading := h.head_zero

/-- As a number, digits are read exactly if their value is below 2 ^ 128. -/
theorem Number.Valid.radixBytes_hex (h : (Number.mk .hex digits).Valid) :
    ((∃ raw, radixBytes digits 16 = .ok raw) ↔ digitsValue 16 digits < 2 ^ 128) ∧
    ∀ raw, radixBytes digits 16 = .ok raw → IsShortest (digitsValue 16 digits) raw := by
  obtain ⟨hfits, hover⟩ := radixBytes_eq h.nonempty h.digit
  change (digitsValue 16 digits < _ → radixBytes digits 16 = _) at hfits
  change (_ ≤ digitsValue 16 digits → radixBytes digits 16 = _) at hover
  rw [word_size] at hfits hover
  by_cases hvalue : digitsValue 16 digits < 2 ^ 128
  · have hread := hfits hvalue
    refine ⟨⟨fun _ => hvalue, fun _ => ⟨_, hread⟩⟩, ?_⟩
    intro raw hraw
    rw [← Except.ok.inj (hread.symm.trans hraw)]
    have hne : bigEndian literalBytes (digitsValue 16 digits) ≠ [] := by
      apply List.ne_nil_of_length_pos
      rw [bigEndian_length]
      decide
    have hshortest := significant_isShortest hne
    rwa [bigEndianValue_bigEndian, word_size, Nat.mod_eq_of_lt hvalue] at hshortest
  · have hread := hover (Nat.not_lt.mp hvalue)
    refine ⟨⟨?_, fun hlt => absurd hlt hvalue⟩, ?_⟩
    · rintro ⟨raw, hraw⟩
      cases hread.symm.trans hraw
    · intro raw hraw
      cases hread.symm.trans hraw

/-- Pairs of digits spell out as many bytes, of the value that the digits have. They are also read
as a number, exactly below 2 ^ 128, which gives these bytes without the zeros in front; brought back
to their width, they are the same again. Anything but pairs of digits is a lexical fault. -/
theorem hexadecimal_readers_agree (digits : Bytes) :
    (digits ≠ [] → digits.length % 2 = 0 → (∀ c ∈ digits, isHexadecimalDigit c = true) →
      ∃ bytes, hexBytes digits = .ok bytes ∧ bytes.length = digits.length / 2 ∧
        bigEndianValue bytes = digitsValue 16 digits ∧
        ((∃ raw, radixBytes digits 16 = .ok raw) ↔ digitsValue 16 digits < 2 ^ 128) ∧
        ∀ raw, radixBytes digits 16 = .ok raw →
          (∀ literal, widen raw (digits.length / 2) literal = .ok bytes) ∧ IsTrimmed bytes raw) ∧
    (digits = [] ∨ digits.length % 2 = 1 ∨ (∃ c ∈ digits, isHexadecimalDigit c = false) →
      ∃ detail, hexBytes digits = .error (.lexical detail)) := by
  refine ⟨?_, hexBytes_eq_error⟩
  intro hne heven hdigits
  have hvalid : (Number.mk .hex digits).Valid :=
    ⟨hne, List.all_eq_true.mpr hdigits, fun _ => heven⟩
  obtain ⟨bytes, hread, hlength, hvalue⟩ := hvalid.bytes_of_hex rfl
  change 2 * bytes.length = digits.length at hlength
  change bigEndianValue bytes = digitsValue 16 digits at hvalue
  have hhalf : bytes.length = digits.length / 2 := by omega
  have hbytes : bytes ≠ [] := by
    have hpositive := List.length_pos_iff.mpr hne
    apply List.ne_nil_of_length_pos
    omega
  obtain ⟨hiff, hshortest⟩ := hvalid.radixBytes_hex
  refine ⟨bytes, hread, hhalf, hvalue, hiff, ?_⟩
  intro raw hraw
  have hraw := hshortest raw hraw
  rw [← hvalue] at hraw
  rw [← hhalf]
  exact ⟨hraw.widen_eq hbytes, hraw.isTrimmed hbytes⟩

/-- With more zeros in front than a word has digits, in both letter cases; and with a letter that is
no digit. -/
theorem hexadecimal_readers_agree_many_zeros :
    (∃ bytes raw, hexBytes "0000000000000000000000000000000000fE" = .ok bytes ∧
      bytes.length = 18 ∧ bigEndianValue bytes = 254 ∧
      radixBytes "0000000000000000000000000000000000fE" 16 = .ok raw ∧
      widen raw 18 "0xfe" = .ok bytes ∧ IsTrimmed bytes raw) ∧
    ∃ detail, hexBytes "0g" = .error (.lexical detail) := by
  have hvalue : digitsValue 16 "0000000000000000000000000000000000fE" = 254 := by decide +kernel
  obtain ⟨bytes, hread, hlength, hbytes, hiff, hraw⟩ :=
    (hexadecimal_readers_agree "0000000000000000000000000000000000fE").1 (by decide)
      (by decide +kernel) (by decide +kernel)
  rw [hvalue] at hbytes hiff
  obtain ⟨raw, hradix⟩ := hiff.mpr (by decide)
  obtain ⟨hwiden, htrimmed⟩ := hraw raw hradix
  refine ⟨⟨bytes, raw, hread, hlength, hbytes, hradix, hwiden "0xfe", htrimmed⟩, ?_⟩
  exact (hexadecimal_readers_agree "0g").2 (.inr (.inr ⟨'g'.toUInt8, by decide, by decide⟩))

end EvmAssembly
