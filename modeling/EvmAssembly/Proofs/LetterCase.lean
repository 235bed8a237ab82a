import EvmAssembly.Proofs.ListingRoundTrip
import EvmAssembly.Proofs.LiteralValue

/-!
# Hexadecimal text in either case

Bytes are written in lower case and read in either. So what is written is read back, what is read is
written again in lower case, and two texts are read as the same bytes exactly if they differ in case
only.
-/

namespace EvmAssembly

variable {c : UInt8} {digits other bytes : Bytes} {value : Nat}

/-- The lower-case form of a letter; other bytes stay as they are. -/
def lowerCase (c : UInt8) : UInt8 :=
  if 'A'.toUInt8 ≤ c ∧ c ≤ 'Z'.toUInt8 then c + ('a'.toUInt8 - 'A'.toUInt8) else c

theorem valueOfDigit?_lowerCase (c : UInt8) : valueOfDigit? (lowerCase c) = valueOfDigit? c := by
  have hall : ∀ n < 256, valueOfDigit? (lowerCase (UInt8.ofNat n)) =
      valueOfDigit? (UInt8.ofNat n) := by
    decide +kernel
  have hc := hall c.toNat c.toNat_lt
  rwa [UInt8.ofNat_toNat] at hc

/-- A digit is written in lower case, whichever case it was read in. -/
theorem hexDigit_of_valueOfDigit? (h : valueOfDigit? c = some value) :
    value < 16 ∧ hexDigit value = lowerCase c := by
  have hall : ∀ n < 256, ∀ value ∈ valueOfDigit? (UInt8.ofNat n),
      value < 16 ∧ hexDigit value = lowerCase (UInt8.ofNat n) := by
    decide +kernel
  have hc := hall c.toNat c.toNat_lt
  rw [UInt8.ofNat_toNat] at hc
  exact hc value h

/-- Each byte is written with two digits, a zero in front if need be. -/
theorem hexText_eq_flatMap (bytes : Bytes) :
    hexText bytes = bytes.flatMap fun b => hexNumber 2 b.toNat := by
  have hbyte : ∀ n < 256, hexNumber 2 n = [hexDigit (n / 16), hexDigit (n % 16)] := by
    decide +kernel
  induction bytes with
  | nil => rfl
  | cons b bytes ih =>
    rw [hexText, List.flatMap_cons, ← ih, hbyte b.toNat b.toNat_lt]
    rfl

theorem hexText_of_hexDecode? (h : hexDecode? digits = some bytes) :
    hexText bytes = digits.map lowerCase := by
  fun_induction hexDecode? digits generalizing bytes with
  | case1 =>
    cases h
    rfl
  | case2 => cases h
  | case3 high low rest first second hlow hhigh ih =>
    obtain ⟨decoded, hdecoded, rfl⟩ := Option.map_eq_some_iff.mp h
    obtain ⟨hfirst, hfirstDigit⟩ := hexDigit_of_valueOfDigit? hhigh
    obtain ⟨hsecond, hsecondDigit⟩ := hexDigit_of_valueOfDigit? hlow
    have hbyte : (UInt8.ofNat (16 * first + second)).toNat = 16 * first + second := by
      rw [UInt8.toNat_ofNat']
      omega
    have hquotient : (16 * first + second) / 16 = first := by omega
    have hremainder : (16 * first + second) % 16 = second := by omega
    rw [hexText, hbyte, hquotient, hremainder, hfirstDigit, hsecondDigit, ih hdecoded]
    rfl
  | case4 => cases h

theorem hexDecode?_lowerCase (digits : Bytes) :
    hexDecode? (digits.map lowerCase) = hexDecode? digits := by
  fun_induction hexDecode? digits with
  | case1 => rfl
  | case2 => rfl
  | case3 high low rest first second hlow hhigh ih =>
    simp only [List.map_cons, hexDecode?, valueOfDigit?_lowerCase, hlow, hhigh, ih]
  | case4 high low rest hnone =>
    simp only [List.map_cons, hexDecode?, valueOfDigit?_lowerCase]

/-- Digits are accepted if there are any and all can be decoded. -/
theorem hexBytes_eq_ok_iff :
    hexBytes digits = .ok bytes ↔ digits ≠ [] ∧ hexDecode? digits = some bytes := by
  constructor
  · intro h
    rw [hexBytes] at h
    split at h
    · cases h
    · rename_i hshape
      cases hdecode : hexDecode? digits with
      | none => simp [hdecode] at h
      | some decoded =>
        simp only [hdecode, Except.ok.injEq] at h
        exact ⟨fun hempty => hshape (.inl hempty), congrArg some h⟩
  · rintro ⟨hne, hdecode⟩
    have heven : digits.length = 2 * bytes.length := by
      rw [← hexText_length, hexText_of_hexDecode? hdecode, List.length_map]
    have hshape : ¬(digits = [] ∨ digits.length % 2 ≠ 0) := by
      rintro (hempty | hodd)
      · exact hne hempty
      · omega
    rw [hexBytes, if_neg hshape, hdecode]

theorem hexText_of_hexBytes (h : hexBytes digits = .ok bytes) :
    hexText bytes = digits.map lowerCase :=
  hexText_of_hexDecode? (hexBytes_eq_ok_iff.mp h).2

/-- Texts that differ in case only are read as the same bytes. -/
theorem hexBytes_of_lowerCase (h : hexBytes digits = .ok bytes)
    (hcase : digits.map lowerCase = other.map lowerCase) : hexBytes other = .ok bytes := by
  obtain ⟨hne, hdecode⟩ := hexBytes_eq_ok_iff.mp h
  rw [hexBytes_eq_ok_iff, ← hexDecode?_lowerCase, ← hcase, hexDecode?_lowerCase]
  refine ⟨?_, hdecode⟩
  rintro rfl
  exact hne (List.map_eq_nil_iff.mp hcase)

/-- Bytes are written with two lower-case digits each, which are read back as these bytes; digits
that are read as bytes are, in lower case, what these bytes are written with. So other digits are
read as the same bytes exactly if they differ in case only, and a push is parsed again from its own
text, whether it has the right number of bytes or comes from a source. -/
theorem hexadecimal_round_trips :
    (∀ bytes : Bytes, (Immediate.bytes bytes).text =
      "0x" ++ bytes.flatMap fun b => hexNumber 2 b.toNat) ∧
    (∀ bytes : Bytes, bytes ≠ [] → hexBytes ((Immediate.bytes bytes).text.drop 2) = .ok bytes) ∧
    (∀ digits bytes, hexBytes digits = .ok bytes →
      (Immediate.bytes bytes).text = "0x" ++ digits.map lowerCase) ∧
    (∀ digits other bytes, hexBytes digits = .ok bytes →
      (hexBytes other = .ok bytes ↔ digits.map lowerCase = other.map lowerCase)) ∧
    (∀ operation ∈ Operation.table, ∀ bytes : Bytes, operation.encoding.hasImmediate = true →
      bytes.length = operation.encoding.width.toNat →
      parse (operation.mnemonic ++ ' '.toUInt8 :: (Immediate.bytes bytes).text) =
        .ok [.instruction ⟨operation, some (.bytes bytes)⟩]) ∧
    ∀ s nodes operation immediate, parse s = .ok nodes →
      .instruction ⟨operation, some immediate⟩ ∈ nodes →
      parse (operation.mnemonic ++ ' '.toUInt8 :: immediate.text) =
        .ok [.instruction ⟨operation, some immediate⟩] := by
  refine ⟨?_, ?_, ?_, ?_, ?_, ?_⟩
  · intro bytes
    rw [Immediate.text, hexText_eq_flatMap]
  · intro bytes hne
    exact hexBytes_hexText hne
  · intro digits bytes h
    rw [Immediate.text, hexText_of_hexBytes h]
  · intro digits other bytes h
    constructor
    · intro hother
      rw [← hexText_of_hexBytes h, hexText_of_hexBytes hother]
    · exact hexBytes_of_lowerCase h
  · intro operation hmem bytes himmediate hlength
    obtain ⟨n, hlow, hhigh, rfl⟩ := Operation.hasImmediate_iff_push.mp ⟨hmem, himmediate⟩
    rw [Operation.pushOf_width hhigh] at hlength
    exact (Node.WellFormed.pushBytes hlow hhigh hlength).parse_text
  · intro s nodes operation immediate h hmem
    exact (parse_wellFormed h _ hmem).parse_text

/-- Digits of both cases, a byte with a zero in front and a zero byte before it. -/
theorem hexadecimal_round_trips_mixed_case :
    hexBytes "000aFe" = .ok [0x00, 0x0a, 0xfe] ∧
    hexBytes ((Immediate.bytes [0x00, 0x0a, 0xfe]).text.drop 2) = .ok [0x00, 0x0a, 0xfe] ∧
    (Immediate.bytes [0x00, 0x0a, 0xfe]).text = "0x000afe" ∧
    hexBytes "000AfE" = .ok [0x00, 0x0a, 0xfe] ∧
    parse "push3 0x000aFe" = .ok [.instruction ⟨.pushOf 3, some (.bytes [0x00, 0x0a, 0xfe])⟩] ∧
    parse "push3 0x000afe" = .ok [.instruction ⟨.pushOf 3, some (.bytes [0x00, 0x0a, 0xfe])⟩] := by
  obtain ⟨-, hread, hwritten, hsame, -, hagain⟩ := hexadecimal_round_trips
  have hbytes : hexBytes "000aFe" = .ok [0x00, 0x0a, 0xfe] := rfl
  have hnumber : (Number.mk .hex "000aFe").Valid := ⟨by decide, by decide, fun _ => rfl⟩
  have hvalid : (Statement.push (.pushOf 3) " " (.number ⟨.hex, "000aFe"⟩)).Valid :=
    ⟨Operation.hasImmediate_iff_push.mpr ⟨3, by decide, by decide, rfl⟩, by decide, hnumber⟩
  have hparse : parse "push3 0x000aFe" =
      .ok [.instruction ⟨.pushOf 3, some (.bytes [0x00, 0x0a, 0xfe])⟩] :=
    hvalid.parse_text.trans rfl
  have hlower := hagain _ _ (.pushOf 3) (.bytes [0x00, 0x0a, 0xfe]) hparse (by simp)
  exact ⟨hbytes, hread _ (by simp), hwritten _ _ hbytes,
    (hsame _ "000AfE" _ hbytes).mpr (by decide), hparse, hlower⟩

end EvmAssembly
