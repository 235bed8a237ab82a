import EvmAssembly.Proofs.CharacterRuns

/-!
# Looking up operations by name

The mnemonics of the table are names, no two of them are the same, and the operations that carry an
immediate are the 32 pushes.
-/

namespace EvmAssembly.Operation

variable {name : Bytes} {operation : Operation}

private theorem ofMnemonic?_table :
    ∀ operation ∈ table, ofMnemonic? operation.mnemonic = some operation := by
  decide +kernel

theorem ofMnemonic?_eq_some_iff :
    ofMnemonic? name = some operation ↔ operation ∈ table ∧ operation.mnemonic = name := by
  constructor
  · intro h
    exact ⟨List.mem_of_find?_eq_some h, mnemonic_of_ofMnemonic? h⟩
  · rintro ⟨hmem, rfl⟩
    exact ofMnemonic?_table operation hmem

private theorem isName_table : ∀ operation ∈ table, IsName operation.mnemonic := by
  decide +kernel

theorem isName_mnemonic (h : operation ∈ table) : IsName operation.mnemonic :=
  isName_table operation h

/-- The push of `n` bytes. -/
def pushOf (n : Nat) : Operation := ⟨"push" ++ decimal n, ⟨0x5f + n.toUInt8, n.toUInt32⟩⟩

theorem mem_pushes : operation ∈ pushes ↔ ∃ n, 1 ≤ n ∧ n ≤ 32 ∧ operation = pushOf n := by
  simp only [pushes, List.mem_map, List.mem_range'_1]
  constructor
  · rintro ⟨n, ⟨hlow, hhigh⟩, rfl⟩
    exact ⟨n, hlow, by omega, rfl⟩
  · rintro ⟨n, hlow, hhigh, rfl⟩
    exact ⟨n, ⟨hlow, by omega⟩, rfl⟩

theorem pushOf_width {n : Nat} (h : n ≤ 32) : (pushOf n).encoding.width.toNat = n := by
  change (UInt32.ofNat n).toNat = n
  rw [UInt32.toNat_ofNat']
  omega

private theorem hasImmediate_of_mem_run {opcode : UInt8} {names : List Bytes}
    (h : operation ∈ run opcode names) : operation.encoding.hasImmediate = false := by
  induction names generalizing opcode with
  | nil => cases h
  | cons first names ih =>
    rcases List.mem_cons.mp h with rfl | h
    · rfl
    · exact ih h

/-- All groups of the table but the pushes are runs of operations without immediate. -/
private theorem plain_or_push (h : operation ∈ table) :
    operation.encoding.hasImmediate = false ∨ operation ∈ pushes := by
  by_cases hpush : operation ∈ pushes
  · exact .inr hpush
  · simp only [table, arithmetic, comparison, hashing, environment, block, storage, duplication,
      exchange, logging, system, List.mem_append, hpush, or_false] at h
    rcases h with ((((((((h | h) | h) | h) | h) | h) | h) | h) | h) | ((h | h) | h)
    all_goals exact .inl (hasImmediate_of_mem_run h)

/-- The operations with an immediate are the pushes of one to 32 bytes. -/
theorem hasImmediate_iff_push : operation ∈ table ∧ operation.encoding.hasImmediate = true ↔
    ∃ n, 1 ≤ n ∧ n ≤ 32 ∧ operation = pushOf n := by
  rw [← mem_pushes]
  constructor
  · rintro ⟨hmem, himmediate⟩
    rcases plain_or_push hmem with hplain | hpush
    · rw [hplain] at himmediate
      cases himmediate
    · exact hpush
  · intro hpush
    have hmem : operation ∈ table := by simp [table, hpush]
    obtain ⟨n, hlow, hhigh, rfl⟩ := mem_pushes.mp hpush
    refine ⟨hmem, ?_⟩
    have hwidth : (pushOf n).encoding.width ≠ 0 := by
      intro hzero
      have hn := pushOf_width hhigh
      rw [hzero] at hn
      exact absurd hn (by simp; omega)
    simp [Encoding.hasImmediate, hwidth]

end EvmAssembly.Operation
