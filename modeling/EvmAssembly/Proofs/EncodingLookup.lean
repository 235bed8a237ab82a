import Mathlib.Data.List.Nodup
import Mathlib.Data.List.Perm.Basic
import EvmAssembly.Proofs.CheckedBuild
import EvmAssembly.Proofs.WrittenNumbers

/-!
# Looking up operations by encoding

No two operations have the same opcode, so an encoding has at most one mnemonic, and the two ways to
look up an operation undo one another. The pushes can also be made from their width alone, and their
mnemonics end in it.
-/

namespace EvmAssembly

variable {name : Bytes} {encoding : Encoding} {operation other : Operation} {width : UInt32}

namespace Operation

/-- An operation of the table is known by its opcode. -/
theorem eq_of_opcode_eq (h : operation ∈ table) (hother : other ∈ table)
    (hopcode : operation.encoding.opcode = other.encoding.opcode) : operation = other := by
  have hnodup : (table.map fun operation => operation.encoding.opcode).Nodup :=
    List.pairwise_map.mpr (Checked.opcodes_ascending.imp fun hlt => UInt8.ne_of_lt hlt)
  exact List.inj_on_of_nodup_map hnodup h hother hopcode

/-- The table as it is put together: the single operations, then the numbered ones by family, where
those of duplication and exchange alternate. -/
def assembled : List Operation :=
  arithmetic ++ comparison ++ hashing ++ environment ++ block ++ storage ++ system ++ pushes ++
    (List.range' 1 16).flatMap (fun n =>
      [⟨"dup" ++ decimal n, ⟨0x7f + n.toUInt8, 0⟩⟩,
        ⟨"swap" ++ decimal n, ⟨0x8f + n.toUInt8, 0⟩⟩]) ++
    (List.range 5).map fun n => ⟨"log" ++ decimal n, ⟨0xa0 + n.toUInt8, 0⟩⟩

theorem assembled_perm_table : assembled.Perm table := by
  have hduplication : duplication =
      (List.range' 1 16).map fun n => ⟨"dup" ++ decimal n, ⟨0x7f + n.toUInt8, 0⟩⟩ := by
    decide +kernel
  have hexchange : exchange =
      (List.range' 1 16).flatMap fun n => [⟨"swap" ++ decimal n, ⟨0x8f + n.toUInt8, 0⟩⟩] := by
    decide +kernel
  have hlogging : logging =
      (List.range 5).map fun n => ⟨"log" ++ decimal n, ⟨0xa0 + n.toUInt8, 0⟩⟩ := by
    decide +kernel
  have hfamilies := List.map_append_flatMap_perm (List.range' 1 16)
    (fun n => (⟨"dup" ++ decimal n, ⟨0x7f + n.toUInt8, 0⟩⟩ : Operation))
    (fun n => [⟨"swap" ++ decimal n, ⟨0x8f + n.toUInt8, 0⟩⟩])
  rw [← hduplication, ← hexchange] at hfamilies
  rw [assembled, ← hlogging, table]
  generalize arithmetic ++ comparison ++ hashing ++ environment ++ block ++ storage = front
  simp only [List.append_assoc]
  apply List.Perm.append_left
  refine List.perm_append_comm.trans ?_
  simp only [List.append_assoc]
  rw [← List.append_assoc duplication]
  exact (hfamilies.symm.append_right _).append_left _

/-- Whatever way the table is sorted by opcode, the result is the same. -/
theorem sorted_eq_table {sorted : List Operation} (hperm : sorted.Perm assembled)
    (hsorted : sorted.Pairwise fun first second =>
      first.encoding.opcode ≤ second.encoding.opcode) : sorted = table := by
  have htable := hperm.trans assembled_perm_table
  apply List.Perm.eq_of_pairwise _ hsorted _ htable
  · intro first second hfirst hsecond hle hge
    exact eq_of_opcode_eq (htable.mem_iff.mp hfirst) hsecond (UInt8.le_antisymm hle hge)
  · exact Checked.opcodes_ascending.imp fun hlt => UInt8.le_of_lt hlt

/-- The encoding that a mnemonic names. -/
def encodingOf? (name : Bytes) : Option Encoding := (ofMnemonic? name).map Operation.encoding

theorem encodingOf?_eq_some_iff :
    encodingOf? name = some encoding ↔
      ∃ operation ∈ table, operation.mnemonic = name ∧ operation.encoding = encoding := by
  simp [encodingOf?, ofMnemonic?_eq_some_iff, and_assoc]

end Operation

namespace Encoding

/-- The mnemonic of an encoding, if an operation has it. -/
def mnemonic (encoding : Encoding) : Except InvalidInstruction Bytes :=
  (Instruction.operationOf encoding).map Operation.mnemonic

theorem mnemonic_of_mem (h : operation ∈ Operation.table) :
    operation.encoding.mnemonic = .ok operation.mnemonic := by
  rw [mnemonic, Instruction.operationOf, Checked.ofEncoding?_encoding h]
  rfl

theorem mnemonic_of_notMem (h : ∀ operation ∈ Operation.table, operation.encoding ≠ encoding) :
    encoding.mnemonic = .error (.unknownOpcode encoding.opcode) := by
  have hnone : Operation.ofEncoding? encoding = none :=
    List.find?_eq_none.mpr fun operation hmem => by simpa using h operation hmem
  rw [mnemonic, Instruction.operationOf, hnone]
  rfl

/-- An operation is found by its mnemonic exactly if its mnemonic is found by its encoding. -/
theorem encodingOf?_eq_some_iff_mnemonic :
    Operation.encodingOf? name = some encoding ↔ encoding.mnemonic = .ok name := by
  rw [Operation.encodingOf?_eq_some_iff]
  constructor
  · rintro ⟨operation, hmem, rfl, rfl⟩
    exact mnemonic_of_mem hmem
  · intro h
    by_cases hentry : ∃ operation ∈ Operation.table, operation.encoding = encoding
    · obtain ⟨operation, hmem, rfl⟩ := hentry
      rw [mnemonic_of_mem hmem] at h
      exact ⟨operation, hmem, Except.ok.inj h, rfl⟩
    · rw [mnemonic_of_notMem fun operation hmem heq => hentry ⟨operation, hmem, heq⟩] at h
      cases h

theorem mnemonic_eq_error_iff :
    encoding.mnemonic = .error (.unknownOpcode encoding.opcode) ↔
      ∀ name, Operation.encodingOf? name ≠ some encoding := by
  constructor
  · intro h name hname
    cases h.symm.trans (encodingOf?_eq_some_iff_mnemonic.mp hname)
  · intro h
    apply mnemonic_of_notMem
    intro operation hmem hencoding
    exact h operation.mnemonic
      (Operation.encodingOf?_eq_some_iff.mpr ⟨operation, hmem, rfl, hencoding⟩)

theorem push?_eq_some_iff :
    push? width = some encoding ↔
      1 ≤ width.toNat ∧ width.toNat ≤ 32 ∧ (Operation.pushOf width.toNat).encoding = encoding := by
  have hbounds : 1 ≤ width ∧ width ≤ 32 ↔ 1 ≤ width.toNat ∧ width.toNat ≤ 32 := Iff.rfl
  by_cases h : 1 ≤ width.toNat ∧ width.toNat ≤ 32
  · have hpush := (Checked.push?_pushOf width.toNat h.2 h.1).1
    rw [UInt32.ofNat_toNat] at hpush
    simp [hpush, h]
  · rw [push?, if_neg (hbounds.not.mpr h)]
    simp only [reduceCtorEq, false_iff]
    exact fun hall => h ⟨hall.1, hall.2.1⟩

/-- The pushes that are made are the operations of the table with that width. -/
theorem push?_eq_some_iff_mem :
    push? width = some encoding ↔
      0 < width ∧ encoding.width = width ∧
        ∃ operation ∈ Operation.table, operation.encoding = encoding := by
  rw [push?_eq_some_iff]
  constructor
  · rintro ⟨hlow, hhigh, rfl⟩
    obtain ⟨hmem, -⟩ := Operation.hasImmediate_iff_push.mpr ⟨width.toNat, hlow, hhigh, rfl⟩
    exact ⟨hlow, UInt32.ofNat_toNat, _, hmem, rfl⟩
  · rintro ⟨hpositive, rfl, operation, hmem, rfl⟩
    have himmediate : operation.encoding.hasImmediate = true := by
      simpa [hasImmediate] using (UInt32.ne_of_lt hpositive).symm
    obtain ⟨n, hlow, hhigh, rfl⟩ := Operation.hasImmediate_iff_push.mp ⟨hmem, himmediate⟩
    rw [Operation.pushOf_width hhigh]
    exact ⟨hlow, hhigh, rfl⟩

end Encoding

/-- A mnemonic names an encoding exactly if the encoding has that mnemonic; all other encodings are
refused. A push is made from its width exactly if the table has it, and its mnemonic is `push` with
the width, from which the width can be read again. The table is in the order of the opcodes, however
it was sorted, and its mnemonics are names. -/
theorem mnemonics_undo_encodings (name : Bytes) (encoding : Encoding) (width : UInt32) :
    (Operation.encodingOf? name = some encoding ↔ encoding.mnemonic = .ok name) ∧
    (encoding.mnemonic = .error (.unknownOpcode encoding.opcode) ↔
      ∀ name, Operation.encodingOf? name ≠ some encoding) ∧
    (Encoding.push? width = some encoding ↔
      0 < width ∧ encoding.width = width ∧
        ∃ operation ∈ Operation.table, operation.encoding = encoding) ∧
    (Encoding.push? width = some encoding →
      ∃ digits, encoding.mnemonic = .ok ("push" ++ digits) ∧ digits = decimal width.toNat ∧
        IsWritten 10 1 width.toNat digits ∧ digits.head? ≠ some '0'.toUInt8 ∧
        Checked.unsigned (("push" ++ digits).drop 4) = .ok width.toNat) ∧
    (Operation.table.Pairwise fun first second =>
      first.encoding.opcode < second.encoding.opcode) ∧
    (∀ sorted : List Operation, sorted.Perm Operation.assembled →
      (sorted.Pairwise fun first second => first.encoding.opcode ≤ second.encoding.opcode) →
      sorted = Operation.table) ∧
    ∀ operation ∈ Operation.table, IsName operation.mnemonic := by
  refine ⟨Encoding.encodingOf?_eq_some_iff_mnemonic, Encoding.mnemonic_eq_error_iff,
    Encoding.push?_eq_some_iff_mem, ?_, Checked.opcodes_ascending,
    fun _ => Operation.sorted_eq_table, fun _ => Operation.isName_mnemonic⟩
  intro h
  obtain ⟨hlow, hhigh, rfl⟩ := Encoding.push?_eq_some_iff.mp h
  obtain ⟨hmem, -⟩ := Operation.hasImmediate_iff_push.mpr ⟨width.toNat, hlow, hhigh, rfl⟩
  obtain ⟨c, rest, hdigits, hc⟩ := @writtenDigits_head 10 width.toNat (by decide) (by decide)
    (by omega)
  refine ⟨decimal width.toNat, Encoding.mnemonic_of_mem hmem, rfl, decimal_isWritten _, ?_, ?_⟩
  · change (writtenDigits 10 width.toNat).head? ≠ _
    rw [hdigits]
    exact fun hzero => hc (Option.some.inj hzero)
  · exact Checked.unsigned_decimal hhigh

theorem mnemonics_undo_encodings_push32 :
    Encoding.push? 32 = some ⟨0x7f, 32⟩ ∧
    (∃ digits, (Encoding.mk 0x7f 32).mnemonic = .ok ("push" ++ digits) ∧ digits = decimal 32 ∧
      Checked.unsigned (("push" ++ digits).drop 4) = .ok 32) ∧
    (Operation.assembled.mergeSort fun first second =>
      decide (first.encoding.opcode ≤ second.encoding.opcode)) = Operation.table := by
  have hpush : Encoding.push? 32 = some ⟨0x7f, 32⟩ := by decide
  obtain ⟨-, -, -, hread, -, hsorted, -⟩ := mnemonics_undo_encodings [] ⟨0x7f, 32⟩ 32
  obtain ⟨digits, hmnemonic, hdigits, -, -, hvalue⟩ := hread hpush
  refine ⟨hpush, ⟨digits, hmnemonic, hdigits, hvalue⟩, ?_⟩
  apply hsorted _ (List.mergeSort_perm _ _)
  have hpairwise := @List.pairwise_mergeSort Operation
    (fun first second => decide (first.encoding.opcode ≤ second.encoding.opcode))
    (fun _ _ _ h h' => decide_eq_true (UInt8.le_trans (of_decide_eq_true h) (of_decide_eq_true h')))
    (fun _ _ => by simpa using UInt8.le_total _ _) Operation.assembled
  exact hpairwise.imp of_decide_eq_true

end EvmAssembly
