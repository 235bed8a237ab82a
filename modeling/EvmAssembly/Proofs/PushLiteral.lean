import EvmAssembly.Proofs.LiteralValue
import EvmAssembly.Proofs.WellFormedNodes

/-!
# Pushing a literal

A push of a literal is one instruction with the value of the literal as its immediate, or an error
at the literal. It does not matter in which radix the value is written, nor which of the two bounds
was exceeded, that of the word digits are read into or that of the push.
-/

namespace EvmAssembly

variable {n : Nat} {gap : Bytes} {number : Number}

/-- The text of a push of `n` bytes with a literal behind a gap. -/
def pushText (n : Nat) (gap : Bytes) (number : Number) : Bytes :=
  "push" ++ decimal n ++ gap ++ number.text

/-- What a push of a literal is parsed to is decided by the immediate alone. -/
theorem parse_pushText (hlow : 1 ≤ n) (hhigh : n ≤ 32) (hgap : gap ≠ [] ∧ gap.all isBlank = true)
    (h : number.Valid) : parse (pushText n gap number) =
      match number.immediate n with
      | .ok bytes => .ok [.instruction ⟨.pushOf n, some (.bytes bytes)⟩]
      | .error fault => .error ⟨fault, ⟨1, 1 + ("push" ++ decimal n ++ gap).length⟩⟩ := by
  have hknown := Operation.hasImmediate_iff_push.mpr ⟨n, hlow, hhigh, rfl⟩
  have hvalid : (Statement.push (.pushOf n) gap (.number number)).Valid := ⟨hknown, hgap, h⟩
  have hplace : Statement.operandPlace (.pushOf n) gap .start =
      ⟨1, 1 + ("push" ++ decimal n ++ gap).length⟩ := by
    apply Location.after_of_notMem
    intro hmem
    apply hvalid.newline_notMem
    exact List.mem_append_left _ hmem
  have hparse : parse (pushText n gap number) = _ := hvalid.parse_text
  rw [hparse, Statement.node, Operation.pushOf_width hhigh, Operand.immediate, hplace]
  cases number.immediate n with
  | error fault => rfl
  | ok bytes => rfl

theorem parse_pushText_of_fits (hlow : 1 ≤ n) (hhigh : n ≤ 32)
    (hgap : gap ≠ [] ∧ gap.all isBlank = true) (h : number.Valid) (hfits : number.Fits n) :
    parse (pushText n gap number) =
      .ok [.instruction ⟨.pushOf n, some (.bytes (bigEndian n number.value))⟩] := by
  rw [parse_pushText hlow hhigh hgap h, ((h.immediate_eq hlow).1 hfits).2]

theorem parse_pushText_of_not_fits (hlow : 1 ≤ n) (hhigh : n ≤ 32)
    (hgap : gap ≠ [] ∧ gap.all isBlank = true) (h : number.Valid) (hfits : ¬ number.Fits n) :
    parse (pushText n gap number) =
      .error ⟨.immediateTooLarge number.text n, ⟨1, 1 + ("push" ++ decimal n ++ gap).length⟩⟩ := by
  rw [parse_pushText hlow hhigh hgap h, (h.immediate_eq hlow).2 hfits]

private theorem parse_pushText_isOk_iff (hlow : 1 ≤ n) (hhigh : n ≤ 32)
    (hgap : gap ≠ [] ∧ gap.all isBlank = true) (h : number.Valid) :
    (∃ nodes, parse (pushText n gap number) = .ok nodes) ↔ number.Fits n := by
  constructor
  · rintro ⟨nodes, hnodes⟩
    by_contra hfits
    cases (parse_pushText_of_not_fits hlow hhigh hgap h hfits).symm.trans hnodes
  · intro hfits
    exact ⟨_, parse_pushText_of_fits hlow hhigh hgap h hfits⟩

theorem Operation.pushOf_opcode (hlow : 1 ≤ n) (hhigh : n ≤ 32) :
    (pushOf n).encoding.opcode.toNat = 0x60 + n - 1 := by
  change (0x5f + n.toUInt8).toNat = 0x60 + n - 1
  rw [UInt8.toNat_add, Nat.toUInt8, UInt8.toNat_ofNat']
  change (0x5f + n % 2 ^ 8) % 2 ^ 8 = _
  omega

/-- A literal is pushed by its value. A hexadecimal one is parsed exactly if it has no more pairs of
digits than the push has bytes, any other one exactly if its value fits into the bytes of the push,
of which sixteen count. The immediate has the width of the push and the value of the literal, so
literals of the same value give the same nodes. A literal that does not fit is reported as it is
written, with the width of the push, at its own place. -/
theorem parse_pushText_by_value (hlow : 1 ≤ n) (hhigh : n ≤ 32)
    (hgap : gap ≠ [] ∧ gap.all isBlank = true) (h : number.Valid) :
    (number.base ≠ .hex →
      ((∃ nodes, parse (pushText n gap number) = .ok nodes) ↔ number.value < 256 ^ min n 16)) ∧
    (number.base = .hex →
      ((∃ nodes, parse (pushText n gap number) = .ok nodes) ↔ number.digits.length / 2 ≤ n)) ∧
    (∀ nodes, parse (pushText n gap number) = .ok nodes →
      (Operation.pushOf n).encoding.opcode.toNat = 0x60 + n - 1 ∧
      ∃ bytes, nodes = [.instruction ⟨.pushOf n, some (.bytes bytes)⟩] ∧ bytes.length = n ∧
        bigEndianValue bytes = number.value) ∧
    (∀ other : Number, other.Valid → other.value = number.value → ∀ nodes others,
      parse (pushText n gap number) = .ok nodes → parse (pushText n gap other) = .ok others →
      others = nodes) ∧
    ∀ error, parse (pushText n gap number) = .error error →
      error.fault.kind = .immediateTooLarge ∧ error.fault.expected = n ∧ error.fault.got = 0 ∧
      error.fault.position = 0 ∧ error.fault.detail = number.text ∧
      error.location = ⟨1, 1 + ("push" ++ decimal n ++ gap).length⟩ := by
  have hok : ∀ {number : Number}, number.Valid → ∀ {nodes},
      parse (pushText n gap number) = .ok nodes → number.Fits n ∧
        nodes = [.instruction ⟨.pushOf n, some (.bytes (bigEndian n number.value))⟩] := by
    intro number hvalid nodes hnodes
    have hfits := (parse_pushText_isOk_iff hlow hhigh hgap hvalid).mp ⟨nodes, hnodes⟩
    cases (parse_pushText_of_fits hlow hhigh hgap hvalid hfits).symm.trans hnodes
    exact ⟨hfits, rfl⟩
  refine ⟨?_, ?_, ?_, ?_, ?_⟩
  · intro hbase
    rw [parse_pushText_isOk_iff hlow hhigh hgap h, Number.Fits, if_neg hbase, literalBytes]
  · intro hbase
    rw [parse_pushText_isOk_iff hlow hhigh hgap h, Number.Fits, if_pos hbase]
    have heven := h.even hbase
    omega
  · intro nodes hnodes
    obtain ⟨hfits, rfl⟩ := hok h hnodes
    refine ⟨Operation.pushOf_opcode hlow hhigh, _, rfl, bigEndian_length n _, ?_⟩
    rw [bigEndianValue_bigEndian, Nat.mod_eq_of_lt ((h.immediate_eq hlow).1 hfits).1]
  · intro other hother hvalue nodes others hnodes hothers
    rw [(hok h hnodes).2, (hok hother hothers).2, hvalue]
  · intro error herror
    have hfits : ¬ number.Fits n := by
      intro hfits
      cases (parse_pushText_of_fits hlow hhigh hgap h hfits).symm.trans herror
    cases (parse_pushText_of_not_fits hlow hhigh hgap h hfits).symm.trans herror
    exact ⟨rfl, rfl, rfl, rfl, rfl, rfl⟩

/-- The greatest value of sixteen bytes is pushed, leading zeros or not. The next one is refused
because the word that digits are read into is too small for it. -/
theorem parse_pushText_sixteen_bytes :
    (∃ nodes, parse "push16 00340282366920938463463374607431768211455" = .ok nodes) ∧
    ∃ error, parse "push16 340282366920938463463374607431768211456" = .error error ∧
      error.fault.kind = .immediateTooLarge ∧ error.fault.expected = 16 ∧ error.fault.got = 0 ∧
      error.fault.position = 0 ∧
      error.fault.detail = "340282366920938463463374607431768211456" ∧
      error.location = ⟨1, 8⟩ := by
  have hgap : (" " : Bytes) ≠ [] ∧ (" " : Bytes).all isBlank = true := by decide
  have hgreatest : (Number.mk .decimal "00340282366920938463463374607431768211455").Valid :=
    ⟨by decide, by decide, nofun⟩
  have hnext : (Number.mk .decimal "340282366920938463463374607431768211456").Valid :=
    ⟨by decide, by decide, nofun⟩
  have hwidth : 1 ≤ 16 ∧ 16 ≤ 32 := by decide
  have hsmallText : pushText 16 " " ⟨.decimal, "00340282366920938463463374607431768211455"⟩ =
      "push16 00340282366920938463463374607431768211455" := by decide +kernel
  have hlargeText : pushText 16 " " ⟨.decimal, "340282366920938463463374607431768211456"⟩ =
      "push16 340282366920938463463374607431768211456" := by decide +kernel
  obtain ⟨hsmall, -⟩ := parse_pushText_by_value hwidth.1 hwidth.2 hgap hgreatest
  obtain ⟨hlarge, -, -, -, herror⟩ := parse_pushText_by_value hwidth.1 hwidth.2 hgap hnext
  rw [hsmallText] at hsmall
  rw [hlargeText] at hlarge herror
  refine ⟨(hsmall nofun).mpr (by decide +kernel), ?_⟩
  cases hparse : parse "push16 340282366920938463463374607431768211456" with
  | ok nodes => exact absurd ((hlarge nofun).mp ⟨nodes, hparse⟩) (by decide +kernel)
  | error error => exact ⟨error, rfl, herror error hparse⟩

end EvmAssembly
